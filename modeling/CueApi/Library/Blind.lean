import CueApi.Library.Recorded

/-! Two runs of one program in lockstep, from states related by `R` and on the same answers from
outside. A blind program takes the same course in both, until it comes to a statement of `D`, where
the runs may part. Time may pass between any two steps, the same in both runs. -/

namespace Interleaving

variable {σ ι α β δ : Type}

/-- What happens to a run: time passes, or its program takes a step. -/
inductive Move (δ ι : Type)
  | drift (d : δ)
  | answer (i : ι)

namespace Prog

/-- Both steps are disabled, or both are taken with one result and `N` holds after them. -/
def Alike (N : β → σ → σ → Prop) (x x' : Option (β × σ)) : Prop :=
  (x = none ∧ x' = none) ∨ ∃ r s s', x = some (r, s) ∧ x' = some (r, s') ∧ N r s s'

/-- From related states the program takes one course up to a statement of `D`, and results satisfy
`Q`. -/
def Blind (R : σ → σ → Prop) (D : Prog σ ι α → Prop) (Q : α → Prop) : Prog σ ι α → Prop
  | .ret a => Q a
  | .fail => True
  | .atomic act k => D (.atomic act k) ∨ ∀ s s' i, R s s' →
      Alike (fun r v v' => R v v' ∧ Blind R D Q (k r)) (act s i) (act s' i)

/-- All results of the program satisfy `Q`, whatever its statements yield. -/
def Leaves (Q : α → Prop) : Prog σ ι α → Prop
  | .ret a => Q a
  | .fail => True
  | .atomic _ k => ∀ r, Leaves Q (k r)

variable {R : σ → σ → Prop} {D : Prog σ ι α → Prop} {Q Q' : α → Prop}

theorem Blind.bind {m : Prog σ ι β} {f : β → Prog σ ι α} {P : β → Prop}
    (hm : Blind R (fun _ => False) P m) (hf : ∀ b, P b → Blind R D Q (f b)) :
    Blind R D Q (m >>= f) := by
  induction m with
  | ret b => exact hf b hm
  | fail => trivial
  | atomic act k ih =>
    rcases hm with hd | hact
    · exact hd.elim
    refine .inr fun s s' i hR => ?_
    rcases hact s s' i hR with hnone | ⟨r, v, v', hs, hs', hR', hk⟩
    · exact .inl hnone
    · exact .inr ⟨r, v, v', hs, hs', hR', ih r hk⟩

/-- The rule of a statement. -/
theorem blind_step {act : σ → ι → Option (β × σ)} {k : β → Prog σ ι α}
    (hact : ∀ s s' i, R s s' →
      Alike (fun r v v' => R v v' ∧ Blind R D Q (k r)) (act s i) (act s' i)) :
    Blind R D Q (Prog.step act >>= k) := .inr hact

theorem Leaves.bind {m : Prog σ ι β} {f : β → Prog σ ι α} (hf : ∀ b, Leaves Q (f b)) :
    Leaves Q (m >>= f) := by
  induction m with
  | ret b => exact hf b
  | fail => trivial
  | atomic act k ih => exact fun r => ih r

section Play

variable (drift : δ → σ → σ)

/-- Run the program on these moves. -/
def play : Prog σ ι α → σ → List (Move δ ι) → Option (Prog σ ι α × σ)
  | m, s, [] => some (m, s)
  | m, s, .drift d :: ms => play m (drift d s) ms
  | .atomic act k, s, .answer i :: ms => (act s i).bind fun x => play (k x.1) x.2 ms
  | _, _, .answer _ :: _ => none

variable {drift} {m : Prog σ ι α} {s s' v v' : σ} {a a' : α} {ms ms' : List (Move δ ι)}

variable (drift) in
/-- Only time has passed. -/
def Drifted (s s' : σ) : Prop := ∃ ds : List δ, s' = ds.foldl (fun s d => drift d s) s

/-- Only time passes after the end. -/
theorem play_ret {x : Prog σ ι α × σ} (h : play drift (.ret a) s ms = some x) :
    x.1 = .ret a ∧ Drifted drift s x.2 := by
  induction ms generalizing s with
  | nil =>
    cases h
    exact ⟨rfl, [], rfl⟩
  | cons mv ms ih =>
    cases mv with
    | drift d =>
      obtain ⟨heq, ds, hds⟩ := ih h
      exact ⟨heq, d :: ds, hds⟩
    | answer i => cases h

theorem play_fail : play drift (.fail : Prog σ ι α) s ms ≠ some (.ret a, v) := by
  induction ms generalizing s with
  | nil => simp [play]
  | cons mv ms ih =>
    cases mv with
    | drift d => exact ih
    | answer i => simp [play]

/-- Time passes until a statement is executed. -/
theorem play_step {act : σ → ι → Option (β × σ)} {k : β → Prog σ ι α}
    (h : play drift (Prog.step act >>= k) s ms = some (.ret a, v)) :
    ∃ s₁ i r s₂ ns, Drifted drift s s₁ ∧ act s₁ i = some (r, s₂) ∧
      play drift (k r) s₂ ns = some (.ret a, v) := by
  induction ms generalizing s with
  | nil => cases h
  | cons mv ms ih =>
    cases mv with
    | drift d =>
      obtain ⟨s₁, i, r, s₂, ns, ⟨ds, hds⟩, hact, hplay⟩ := ih h
      exact ⟨s₁, i, r, s₂, ns, ⟨d :: ds, hds⟩, hact, hplay⟩
    | answer i =>
      obtain ⟨⟨r, s₂⟩, hact, h⟩ := Option.bind_eq_some_iff.mp h
      exact ⟨s, i, r, s₂, ms, ⟨[], rfl⟩, hact, h⟩

theorem Leaves.play (hm : Leaves Q m) (h : play drift m s ms = some (.ret a, v)) : Q a := by
  induction ms generalizing m s with
  | nil =>
    cases h
    exact hm
  | cons mv ms ih =>
    cases mv with
    | drift d => exact ih hm h
    | answer i =>
      cases m with
      | ret b => cases h
      | fail => cases h
      | atomic act k =>
        obtain ⟨⟨r, s₁⟩, -, h⟩ := Option.bind_eq_some_iff.mp h
        exact ih (hm r) h

/-- Of two runs on the same moves that both end, either both end alike or both come to a statement
of `D` in related states. -/
theorem Blind.play (hm : Blind R D Q m) (hdrift : ∀ d s s', R s s' → R (drift d s) (drift d s'))
    (hR : R s s') (h : play drift m s ms = some (.ret a, v))
    (h' : play drift m s' ms' = some (.ret a', v')) (hc : ms <+: ms' ∨ ms' <+: ms) :
    (a = a' ∧ Q a ∧ ∃ u u', R u u' ∧ Drifted drift u v ∧ Drifted drift u' v') ∨
    ∃ m₀ u u' ns ns', D m₀ ∧ R u u' ∧ play drift m₀ u ns = some (.ret a, v) ∧
      play drift m₀ u' ns' = some (.ret a', v') := by
  induction ms generalizing m s s' ms' with
  | nil =>
    cases h
    obtain ⟨heq, hd'⟩ := play_ret h'
    cases heq
    exact .inl ⟨rfl, hm, _, s', hR, ⟨[], rfl⟩, hd'⟩
  | cons mv ms ih =>
    cases m with
    | ret b =>
      obtain ⟨heq, hd⟩ := play_ret h
      obtain ⟨heq', hd'⟩ := play_ret h'
      cases heq
      cases heq'
      exact .inl ⟨rfl, hm, s, s', hR, hd, hd'⟩
    | fail => exact absurd h play_fail
    | atomic act k =>
      rcases hm with hd | hact
      · exact .inr ⟨_, s, s', mv :: ms, ms', hd, hR, h, h'⟩
      cases ms' with
      | nil => cases h'
      | cons mv' ms' =>
        simp only [List.cons_prefix_cons] at hc
        obtain rfl : mv = mv' := hc.elim (fun hc => hc.1) fun hc => hc.1.symm
        have hc' : ms <+: ms' ∨ ms' <+: ms := hc.imp (fun hc => hc.2) fun hc => hc.2
        cases mv with
        | drift d =>
          have hm : Blind R D Q (.atomic act k) := .inr hact
          exact ih hm (hdrift d s s' hR) h h' hc'
        | answer i =>
          obtain ⟨⟨r, s₁⟩, hs, h⟩ := Option.bind_eq_some_iff.mp h
          obtain ⟨⟨r', s₁'⟩, hs', h'⟩ := Option.bind_eq_some_iff.mp h'
          rcases hact s s' i hR with ⟨hnone, -⟩ | ⟨r₀, v₀, v₀', heq, heq', hR', hk⟩
          · rw [hs] at hnone
            cases hnone
          · cases hs.symm.trans heq
            cases hs'.symm.trans heq'
            exact ih hk hR' h h' hc'

end Play

end Prog

end Interleaving

/-! ## One process of a system -/

namespace Recorded

open ReadCommitted Interleaving

variable {K T W P C M R X ι : Type} {S : Schema K T W}

/-- Time passes. -/
def tick (d : Nat) (w : World S P C M R X) : World S P C M R X := { w with clock := w.clock + d }

theorem drifted_tick {w w' : World S P C M R X} (h : Prog.Drifted tick w w') :
    w'.store = w.store ∧ w'.history = w.history := by
  obtain ⟨ds, rfl⟩ := h
  induction ds generalizing w with
  | nil => exact ⟨rfl, rfl⟩
  | cons d ds ih => exact ih (w := tick d w)

/-- The moves of `p` and of time, as actions of the system. -/
def moved (p : P) : Move Nat ι → Action P C ι
  | .drift d => .tick d
  | .answer i => .advance p i

variable [DecidableEq P] {programOf : P → C → Prog (World S P C M R X) ι R}
variable {s s' : System S P C M R X ι} {p : P}

/-- While the others rest, the system does what the program of `p` does. -/
theorem play_of_run {m : Prog (World S P C M R X) ι R} {ms : List (Move Nat ι)}
    (hp : s.procs p = some m) (hr : run programOf s (ms.map (moved p)) = some s') :
    ∃ m', s'.procs p = some m' ∧ m.play tick s.shared ms = some (m', s'.shared) := by
  induction ms generalizing m s with
  | nil =>
    cases hr
    exact ⟨m, hp, rfl⟩
  | cons mv ms ih =>
    obtain ⟨s₁, hs, hr⟩ := Option.bind_eq_some_iff.mp hr
    cases mv with
    | drift d =>
      cases hs
      obtain ⟨m', hp', hplay⟩ := ih (s := { s with shared := tick d s.shared }) hp hr
      exact ⟨m', hp', hplay⟩
    | answer i =>
      simp only [moved, Recorded.step, Config.advance, hp] at hs
      cases m with
      | ret a => cases hs
      | fail => cases hs
      | atomic act k =>
        obtain ⟨⟨r, w⟩, hact, rfl⟩ := Option.map_eq_some_iff.mp hs
        obtain ⟨m', hp', hplay⟩ := ih (m := k r) (by simp) hr
        refine ⟨m', hp', ?_⟩
        simp only [Prog.play, hact, Option.bind_some]
        exact hplay

end Recorded
