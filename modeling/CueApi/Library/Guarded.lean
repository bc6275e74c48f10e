import CueApi.Library.Always

/-! Safety under a condition on the steps: `when C` takes from a program the steps that do not
meet `C`, and a program is `SafeIf` the rest of it is safe. A program also runs beside a ghost
state that its steps leave alone (`beside`). -/

namespace Interleaving

variable {P σ ι ν α β : Type}

namespace Prog

open Classical in
/-- The step where it meets `C`. -/
noncomputable def keep (C : σ → σ → Prop) (act : σ → ι → Option (β × σ)) (s : σ) (i : ι) :
    Option (β × σ) := (act s i).filter fun x => decide (C s x.2)

theorem keep_eq_some {C : σ → σ → Prop} {act : σ → ι → Option (β × σ)} {s s' : σ} {i : ι} {r : β} :
    keep C act s i = some (r, s') ↔ act s i = some (r, s') ∧ C s s' := by
  simp [keep, Option.filter_eq_some_iff]

/-- The program with only the steps that meet `C`. -/
noncomputable def when (C : σ → σ → Prop) : Prog σ ι α → Prog σ ι α
  | .ret a => .ret a
  | .fail => .fail
  | .atomic act k => .atomic (keep C act) fun r => (k r).when C

variable {C : σ → σ → Prop}

theorem when_bind (m : Prog σ ι β) (f : β → Prog σ ι α) :
    (m >>= f).when C = m.when C >>= fun b => (f b).when C := by
  induction m with
  | ret a => rfl
  | fail => rfl
  | atomic act k ih =>
    change Prog.atomic _ _ = Prog.atomic _ _
    congr 1
    funext r
    exact ih r

theorem when_mapEach (f : β → Prog σ ι α) (xs : List β) :
    (mapEach f xs).when C = mapEach (fun x => (f x).when C) xs := by
  induction xs with
  | nil => rfl
  | cons x xs ih =>
    change (f x >>= fun y => mapEach f xs >>= fun ys => ret (y :: ys)).when C =
      ((f x).when C >>= fun y => mapEach (fun x => (f x).when C) xs >>= fun ys => ret (y :: ys))
    simp only [when_bind, ih]
    rfl

/-- The program beside a ghost state. -/
def beside (ν : Type) : Prog σ ι α → Prog (σ × ν) ι α
  | .ret a => .ret a
  | .fail => .fail
  | .atomic act k =>
      .atomic (fun s i => (act s.1 i).map fun x => (x.1, (x.2, s.2))) fun r => (k r).beside ν

theorem Always.beside {A : ι → Prop} {G : σ → σ → Prop} {m : Prog σ ι α} (hm : m.Always A G) :
    (m.beside ν).Always A fun s s' => G s.1 s'.1 ∧ s'.2 = s.2 := by
  induction m with
  | ret a => trivial
  | fail => trivial
  | atomic act k ih =>
    intro s i r s' hi hs
    obtain ⟨⟨r, w⟩, hact, heq⟩ := Option.map_eq_some_iff.mp hs
    cases heq
    obtain ⟨hG, hk⟩ := hm s.1 i r w hi hact
    exact ⟨⟨hG, rfl⟩, ih r hk⟩

end Prog

open Prog

section Rule

variable (C : σ → σ → Prop) (I : σ → Prop) (R : P → σ → σ → Prop) (p : P)

/-- `Safe`, as far as the program's own steps meet `C`. -/
def SafeIf (Q : α → σ → Prop) (m : Prog σ ι α) (s : σ) : Prop := Safe I R p Q (m.when C) s

variable {C I R p}

theorem SafeIf.bind {Q : α → σ → Prop} {Q' : β → σ → Prop} {f : α → Prog σ ι β}
    {m : Prog σ ι α} {s : σ} (hm : SafeIf C I R p Q m s)
    (hf : ∀ a s', Q a s' → SafeIf C I R p Q' (f a) s') : SafeIf C I R p Q' (m >>= f) s := by
  unfold SafeIf
  rw [when_bind]
  exact Safe.bind hm hf

/-- The rule of a statement. -/
theorem SafeIf.step_bind {Q : α → σ → Prop} {act : σ → ι → Option (β × σ)}
    {k : β → Prog σ ι α} {s : σ}
    (h : ∀ s₁, R p s s₁ → I s₁ → ∀ i r s₂, act s₁ i = some (r, s₂) → C s₁ s₂ →
      I s₂ ∧ (∀ q, q ≠ p → R q s₁ s₂) ∧ SafeIf C I R p Q (k r) s₂) :
    SafeIf C I R p Q (Prog.step act >>= k) s := by
  intro s₁ hr hi i r s₂ hs
  obtain ⟨hact, hc⟩ := keep_eq_some.mp hs
  exact h s₁ hr hi i r s₂ hact hc

theorem SafeIf.step {Q : β → σ → Prop} {act : σ → ι → Option (β × σ)} {s : σ}
    (h : ∀ s₁, R p s s₁ → I s₁ → ∀ i r s₂, act s₁ i = some (r, s₂) → C s₁ s₂ →
      I s₂ ∧ (∀ q, q ≠ p → R q s₁ s₂) ∧ Q r s₂) : SafeIf C I R p Q (Prog.step act) s := by
  intro s₁ hr hi i r s₂ hs
  obtain ⟨hact, hc⟩ := keep_eq_some.mp hs
  exact h s₁ hr hi i r s₂ hact hc

theorem SafeIf.weaken {Q Q' : α → σ → Prop} {m : Prog σ ι α} {s : σ}
    (hm : SafeIf C I R p Q m s) (h : ∀ a s, Q a s → Q' a s) : SafeIf C I R p Q' m s :=
  Safe.weaken hm h

/-- The invariant may be used before the first step. -/
theorem SafeIf.enter {m : Prog σ ι α} {s : σ} (hrefl : ∀ s, R p s s)
    (h : ∀ s₁, R p s s₁ → I s₁ → SafeIf C I R p (fun _ _ => True) m s₁) :
    SafeIf C I R p (fun _ _ => True) m s := by
  cases m with
  | ret a => trivial
  | fail => trivial
  | atomic act k => exact fun s₁ hr hi => h s₁ hr hi s₁ (hrefl s₁) hi

/-- A loop keeps `J`, which knows the elements done and those to come. -/
theorem SafeIf.mapEach {J : List α → List α → σ → Prop} {f : α → Prog σ ι β}
    (hf : ∀ done x todo s, J done (x :: todo) s →
      SafeIf C I R p (fun _ s' => J (done ++ [x]) todo s') (f x) s)
    (done : List α) {todo : List α} {s : σ} (h : J done todo s) :
    SafeIf C I R p (fun _ s' => J (done ++ todo) [] s') (Prog.mapEach f todo) s := by
  unfold SafeIf
  rw [when_mapEach]
  exact Safe.mapEach hf done h

/-- A program is safe if each of its steps is harmless by itself, given an assertion `K` that
holds all along. -/
theorem SafeIf.of_always {G : σ → σ → Prop} {K : σ → Prop} {m : Prog σ ι α}
    (hm : m.Always (fun _ => True) G) (hK : ∀ s s', K s → R p s s' → K s')
    (h : ∀ s s', I s → K s → G s s' → C s s' → I s' ∧ K s' ∧ ∀ q, q ≠ p → R q s s')
    {s : σ} (hs : K s) : SafeIf C I R p (fun _ s => K s) m s := by
  induction m generalizing s with
  | ret a => exact hs
  | fail => trivial
  | atomic act k ih =>
    intro s₁ hr hI i r s₂ hact
    obtain ⟨hact, hc⟩ := keep_eq_some.mp hact
    obtain ⟨hG, hk⟩ := hm s₁ i r s₂ trivial hact
    obtain ⟨hI₂, hK₂, hR⟩ := h s₁ s₂ hI (hK s s₁ hs hr) hG hc
    exact ⟨hI₂, hR, ih r hk hK₂⟩

/-- What is safe by itself is safe beside a ghost state. -/
theorem SafeIf.beside {C' : σ × ν → σ × ν → Prop} {I' : σ × ν → Prop}
    {R' : P → σ × ν → σ × ν → Prop} (hC : ∀ w w' l, C' (w, l) (w', l) → C w w')
    (hI : ∀ w l, I' (w, l) ↔ I w) (hR : ∀ q w w' l l', R' q (w, l) (w', l') ↔ R q w w')
    {Q : α → σ → Prop} {m : Prog σ ι α} {w : σ} (hm : SafeIf C I R p Q m w) (l : ν) :
    SafeIf C' I' R' p (fun a s => Q a s.1) (m.beside ν) (w, l) := by
  induction m generalizing w l with
  | ret a => exact hm
  | fail => trivial
  | atomic act k ih =>
    rintro ⟨w₁, l₁⟩ hr hi i r ⟨w₂, l₂⟩ hs
    obtain ⟨hs, hc⟩ := keep_eq_some.mp hs
    obtain ⟨⟨r, w₂⟩, hact, heq⟩ := Option.map_eq_some_iff.mp hs
    cases heq
    obtain ⟨hi₂, hr₂, hk⟩ := hm w₁ ((hR p w w₁ l l₁).mp hr) ((hI w₁ l₁).mp hi) i r w₂
      (keep_eq_some.mpr ⟨hact, hC w₁ w₂ l₁ hc⟩)
    exact ⟨(hI w₂ l₁).mpr hi₂, fun q hq => (hR q w₁ w₂ l₁ l₁).mpr (hr₂ q hq), ih r hk l₁⟩

end Rule

namespace Config

variable {C : P → σ → σ → Prop}

/-- The configuration in which each process keeps to its condition. -/
noncomputable def when (C : P → σ → σ → Prop) (c : Config P σ ι α) : Config P σ ι α :=
  ⟨c.shared, fun p => (c.procs p).map (Prog.when (C p))⟩

variable [DecidableEq P]

theorem advance_when {c c' : Config P σ ι α} {p : P} {i : ι} (hs : c.advance p i = some c')
    (hc : C p c.shared c'.shared) : (c.when C).advance p i = some (c'.when C) := by
  unfold advance at hs ⊢
  split at hs
  · rename_i β act k hp
    obtain ⟨⟨r, s⟩, hact, rfl⟩ := Option.map_eq_some_iff.mp hs
    have hprocs : (c.when C).procs p = some (.atomic (keep (C p) act) fun r =>
        (k r).when (C p)) := by simp [when, hp, Prog.when]
    have hkeep : keep (C p) act c.shared i = some (r, s) := keep_eq_some.mpr ⟨hact, hc⟩
    rw [hprocs]
    simp only [hkeep, Option.map_some, when, Option.some.injEq, Config.mk.injEq, true_and]
    funext q
    by_cases hq : q = p
    · subst hq
      simp
    · simp [hq]
  · cases hs

theorem put_when (c : Config P σ ι α) (s : σ) (p : P) (m : Option (Prog σ ι α)) :
    (c.put s p m).when C = (c.when C).put s p (m.map (Prog.when (C p))) := by
  unfold when put
  congr 1
  funext q
  by_cases hq : q = p
  · subst hq
    simp
  · simp [hq]

end Config

end Interleaving
