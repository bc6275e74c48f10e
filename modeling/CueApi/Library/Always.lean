import CueApi.Library.Interleaving

/-! What every step of a program does, whatever the state it meets: a property of
the program text. `A` restricts the answers from outside, `G` is the step. -/

namespace Interleaving

variable {P σ ι α β : Type}

namespace Prog

def Always (A : ι → Prop) (G : σ → σ → Prop) : Prog σ ι α → Prop
  | .ret _ => True
  | .fail => True
  | .atomic act k => ∀ s i r s', A i → act s i = some (r, s') → G s s' ∧ Always A G (k r)

variable {A : ι → Prop} {G G' : σ → σ → Prop}

theorem Always.step {act : σ → ι → Option (β × σ)}
    (h : ∀ s i r s', A i → act s i = some (r, s') → G s s') : Always A G (Prog.step act) :=
  fun s i r s' hi hs => ⟨h s i r s' hi hs, trivial⟩

/-- A step whose result depends on the answer. -/
theorem Always.step_bind {act : σ → ι → Option (β × σ)} {k : β → Prog σ ι α}
    (h : ∀ s i r s', A i → act s i = some (r, s') → G s s' ∧ Always A G (k r)) :
    Always A G (Prog.step act >>= k) := h

theorem Always.bind {m : Prog σ ι β} {f : β → Prog σ ι α} (hm : Always A G m)
    (hf : ∀ b, Always A G (f b)) : Always A G (m >>= f) := by
  induction m with
  | ret a => exact hf a
  | fail => trivial
  | atomic act k ih =>
    intro s i r s' hi hs
    obtain ⟨hG, hk⟩ := hm s i r s' hi hs
    exact ⟨hG, ih r hk⟩

theorem Always.mapEach_mem {f : β → Prog σ ι α} {xs : List β} (hf : ∀ x ∈ xs, Always A G (f x)) :
    Always A G (Prog.mapEach f xs) := by
  induction xs with
  | nil => trivial
  | cons x xs ih =>
    refine (hf x (by simp)).bind fun _ => (ih fun y hy => hf y ?_).bind fun _ => trivial
    exact List.mem_cons_of_mem x hy

theorem Always.mapEach {f : β → Prog σ ι α} (hf : ∀ x, Always A G (f x)) (xs : List β) :
    Always A G (Prog.mapEach f xs) := mapEach_mem fun x _ => hf x

theorem Always.and {m : Prog σ ι α} (hm : Always A G m) (hm' : Always A G' m) :
    Always A (fun s s' => G s s' ∧ G' s s') m := by
  induction m with
  | ret a => trivial
  | fail => trivial
  | atomic act k ih =>
    intro s i r s' hi hs
    obtain ⟨hG, hk⟩ := hm s i r s' hi hs
    obtain ⟨hG', hk'⟩ := hm' s i r s' hi hs
    exact ⟨⟨hG, hG'⟩, ih r hk hk'⟩

theorem Always.mono {m : Prog σ ι α} (hm : Always A G m) (h : ∀ s s', G s s' → G' s s') :
    Always A G' m := by
  induction m with
  | ret a => trivial
  | fail => trivial
  | atomic act k ih =>
    intro s i r s' hi hs
    obtain ⟨hG, hk⟩ := hm s i r s' hi hs
    exact ⟨h s s' hG, ih r hk⟩

end Prog

/-- The step of a configuration is one of the program that takes it. -/
theorem Config.advance_always [DecidableEq P] {A : ι → Prop} {G : σ → σ → Prop}
    {c c' : Config P σ ι α} {p : P} {i : ι} (hs : c.advance p i = some c') (hi : A i)
    (hp : ∀ m, c.procs p = some m → m.Always A G) :
    G c.shared c'.shared ∧ (∀ m, c'.procs p = some m → m.Always A G) ∧
      (c.procs p).isSome ∧ (c'.procs p).isSome ∧ ∀ q, q ≠ p → c'.procs q = c.procs q := by
  unfold Config.advance at hs
  split at hs
  · rename_i β act k hm
    obtain ⟨⟨r, s⟩, hact, rfl⟩ := Option.map_eq_some_iff.mp hs
    obtain ⟨hG, hk⟩ := hp _ hm c.shared i r s hi hact
    refine ⟨hG, ?_, by simp [hm], by simp, fun q hq => Function.update_of_ne hq _ _⟩
    intro m hm'
    obtain rfl : k r = m := by simpa using hm'
    exact hk
  · cases hs

end Interleaving
