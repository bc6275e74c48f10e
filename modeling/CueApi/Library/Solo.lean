import CueApi.Library.Interleaving

/-! Programs run alone: nothing moves between two of their steps. `Surely` is
total correctness: the program is never stuck, whatever the answers from outside
it ends in `Q`, and it fails only under the excuse `E`. -/

namespace Interleaving

variable {σ ι α β : Type}

namespace Prog

def Surely (E : Prop) (Q : α → σ → Prop) : Prog σ ι α → σ → Prop
  | .ret a, s => Q a s
  | .fail, _ => E
  | .atomic act k, s => (∃ i, (act s i).isSome) ∧
      ∀ i r s', act s i = some (r, s') → Surely E Q (k r) s'

variable {E : Prop} {Q Q' : α → σ → Prop}

theorem Surely.mono {m : Prog σ ι α} {s : σ} (h : Surely E Q m s)
    (hq : ∀ a s, Q a s → Q' a s) : Surely E Q' m s := by
  induction m generalizing s with
  | ret a => exact hq a s h
  | fail => exact h
  | atomic act k ih => exact ⟨h.1, fun i r s' hs => ih r (h.2 i r s' hs)⟩

theorem surely_bind {m : Prog σ ι β} {f : β → Prog σ ι α} {s : σ} :
    Surely E Q (m >>= f) s ↔ Surely E (fun b s' => Surely E Q (f b) s') m s := by
  induction m generalizing s with
  | ret a => exact Iff.rfl
  | fail => exact Iff.rfl
  | atomic act k ih =>
    refine and_congr Iff.rfl (forall₂_congr fun i r => forall₂_congr fun s' _ => ?_)
    exact ih r

theorem Surely.and {m : Prog σ ι α} {s : σ} (h : Surely E Q m s) (h' : Surely E Q' m s) :
    Surely E (fun a s => Q a s ∧ Q' a s) m s := by
  induction m generalizing s with
  | ret a => exact ⟨h, h'⟩
  | fail => exact h
  | atomic act k ih => exact ⟨h.1, fun i r s' hs => ih r (h.2 i r s' hs) (h'.2 i r s' hs)⟩

/-- What is sure to end ends. -/
theorem Surely.ends {m : Prog σ ι α} {s : σ} (h : Surely False Q m s) : ∃ a s', Q a s' := by
  induction m generalizing s with
  | ret a => exact ⟨a, s, h⟩
  | fail => exact h.elim
  | atomic act k ih =>
    obtain ⟨⟨i, hi⟩, hk⟩ := h
    obtain ⟨⟨r, s'⟩, hs⟩ := Option.isSome_iff_exists.mp hi
    exact ih r (hk i r s' hs)

/-- Take steps with the given answers. -/
def follow : Prog σ ι α → σ → List ι → Option (Prog σ ι α × σ)
  | m, s, [] => some (m, s)
  | .atomic act k, s, i :: is => (act s i).bind fun x => (k x.1).follow x.2 is
  | _, _, _ :: _ => none

theorem follow_step_bind (act : σ → ι → Option (β × σ)) (k : β → Prog σ ι α) (s : σ) (i : ι)
    (is : List ι) : (Prog.step act >>= k).follow s (i :: is) =
      (act s i).bind fun x => (k x.1).follow x.2 is := rfl

theorem Surely.follow {m m' : Prog σ ι α} {s s' : σ} {is : List ι} (h : Surely E Q m s)
    (hf : m.follow s is = some (m', s')) : Surely E Q m' s' := by
  induction is generalizing m s with
  | nil =>
    simp only [Prog.follow, Option.some.injEq, Prod.mk.injEq] at hf
    obtain ⟨rfl, rfl⟩ := hf
    exact h
  | cons i is ih =>
    cases m with
    | atomic act k =>
      obtain ⟨⟨r, s₁⟩, hs, hk⟩ := Option.bind_eq_some_iff.mp hf
      exact ih (h.2 i r s₁ hs) hk
    | ret a => cases hf
    | fail => cases hf

def failed : Prog σ ι α → Bool
  | .fail => true
  | _ => false

/-- One run that fails refutes `Surely`. -/
theorem not_surely_of_follow {m : Prog σ ι α} {s : σ} {is : List ι}
    (hf : (m.follow s is).any (fun x => x.1.failed) = true) : ¬ Surely False Q m s := by
  intro h
  obtain ⟨⟨m', s'⟩, hx, hfail⟩ := (Option.any_eq_true _ _).mp hf
  have h' := h.follow hx
  cases m' with
  | fail => exact h'
  | ret a => cases hfail
  | atomic act k => cases hfail

/-- A loop keeps `J`, which knows the elements done and those to come. -/
theorem Surely.mapEach {J : List β → List β → σ → Prop} {f : β → Prog σ ι α}
    (hf : ∀ done x todo s, J done (x :: todo) s →
      Surely E (fun _ s' => J (done ++ [x]) todo s') (f x) s)
    (done : List β) {todo : List β} {s : σ} (h : J done todo s) :
    Surely E (fun _ s' => J (done ++ todo) [] s') (mapEach f todo) s := by
  induction todo generalizing done s with
  | nil => simpa [Prog.mapEach, Surely] using h
  | cons x todo ih =>
    refine surely_bind.mpr ((hf done x todo s h).mono fun y s' h' => ?_)
    refine surely_bind.mpr ((ih _ h').mono fun ys s'' h'' => ?_)
    simpa [Surely] using h''

/-- A loop has a result for each element. -/
theorem Surely.mapEach_length {Q : List α → σ → Prop} {f : β → Prog σ ι α} {xs : List β} {s : σ}
    (h : Surely E Q (Prog.mapEach f xs) s) :
    Surely E (fun ys s' => ys.length = xs.length ∧ Q ys s') (Prog.mapEach f xs) s := by
  induction xs generalizing Q s with
  | nil => exact ⟨rfl, h⟩
  | cons x xs ih =>
    refine surely_bind.mpr ((surely_bind.mp h).mono fun y s' h' => ?_)
    refine surely_bind.mpr ((ih (surely_bind.mp h')).mono ?_)
    rintro ys s'' ⟨hlength, hq⟩
    exact ⟨by rw [List.length_cons, List.length_cons, hlength], hq⟩

end Prog

end Interleaving
