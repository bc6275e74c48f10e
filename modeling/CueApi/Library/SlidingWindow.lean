import Mathlib.Data.List.Basic

/-! A sliding window: a limiter that looks at the entries of the last `w` units of time before it
lets a request through and adds an entry, and what it lets through in any window. Others may add
entries, and entries that are too old may go. -/

namespace SlidingWindow

variable (w : Int)

/-- How many of the instants are later than `t - w`. -/
def recent (t : Int) (log : List Int) : Nat := log.countP fun x => decide (t - w < x)

/-- How many of them lie in the window that ends at `t`. -/
def hits (t : Int) (log : List Int) : Nat := log.countP fun x => decide (t - w < x) && decide (x ≤ t)

/-- At `now` the log of what was let through is within `limit` in every window, and the entries
that will be read at any later instant have its recent part. -/
structure Tracks (limit : Nat) (log : List Int) (now : Int) (entries : Int → List Int) : Prop where
  past : ∀ x ∈ log, x ≤ now
  recorded : ∀ t, now ≤ t → recent w t log ≤ recent w t (entries t)
  bounded : ∀ t, hits w t log ≤ limit

variable {w} {limit : Nat} {log old : List Int} {now t x : Int} {entries entries' : Int → List Int}

theorem hits_le_recent : hits w t log ≤ recent w t log :=
  List.countP_mono_left fun _ _ h => (Bool.and_eq_true_iff.mp h).1

theorem recent_mono {s : Int} (h : s ≤ t) : recent w t log ≤ recent w s log := by
  refine List.countP_mono_left fun x _ hx => ?_
  have hx := of_decide_eq_true hx
  exact decide_eq_true (by omega)

theorem recent_cons : recent w t (x :: log) = recent w t log + if t - w < x then 1 else 0 := by
  simp [recent, List.countP_cons]

theorem recent_eq_zero (h : ∀ x ∈ log, x ≤ t - w) : recent w t log = 0 := by
  refine List.countP_eq_zero.mpr fun x hx => ?_
  have hle := h x hx
  simpa using hle

/-- Entries that are too old now are too old later. -/
theorem recent_filter {keep : Int → Bool} (hk : ∀ x, now - w < x → keep x = true) (h : now ≤ t) :
    recent w t (old.filter keep) = recent w t old := by
  unfold recent
  rw [List.countP_filter]
  refine List.countP_congr fun x _ => ?_
  simp only [Bool.and_eq_true, decide_eq_true_eq, and_iff_left_iff_imp]
  exact fun hx => hk x (by omega)

theorem Tracks.nil : Tracks w limit [] now entries where
  past x hx := by cases hx
  recorded t _ := Nat.zero_le _
  bounded t := Nat.zero_le _

/-- Time passes, and the entries keep what counts. -/
theorem Tracks.keep {now' : Int} (h : Tracks w limit log now entries) (hn : now ≤ now')
    (hr : ∀ t, now' ≤ t → recent w t log ≤ recent w t (entries' t)) :
    Tracks w limit log now' entries' where
  past x hx := Int.le_trans (h.past x hx) hn
  recorded := hr
  bounded := h.bounded

/-- A request of the time `x` is let through when it found fewer than `limit` recent ones. -/
theorem Tracks.admit {now' : Int} (h : Tracks w limit log now entries) (hn : now ≤ now')
    (hx : x ≤ now') (hlt : recent w x log < limit)
    (hr : ∀ t, now' ≤ t → recent w t (x :: log) ≤ recent w t (entries' t)) :
    Tracks w limit (x :: log) now' entries' where
  past y hy := by
    rcases List.mem_cons.mp hy with rfl | hy
    · exact hx
    · exact Int.le_trans (h.past y hy) hn
  recorded := hr
  bounded t := by
    by_cases hin : t - w < x ∧ x ≤ t
    · -- the window holds the new request, and what else it holds was recent when that came
      have hlog : hits w t log ≤ recent w x log := Nat.le_trans hits_le_recent (recent_mono hin.2)
      have hcons : hits w t (x :: log) = hits w t log + 1 := by
        simp [hits, hin]
      omega
    · have hcons : hits w t (x :: log) = hits w t log := by
        simp [hits, hin]
      rw [hcons]
      exact h.bounded t

end SlidingWindow
