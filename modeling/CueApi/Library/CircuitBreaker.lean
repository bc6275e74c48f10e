import Mathlib.Data.List.Basic

/-! Circuit breakers with a counter of failures and a time until which nothing is tried. An attempt
is let through when that time is past; a failure counts, and from the threshold on it pauses; a
success clears the counter and leaves the pause, which is over. -/

namespace CircuitBreaker

/-- An answered attempt. -/
structure Attempt where
  start : Int
  ok : Bool
  deriving DecidableEq, Repr

structure Breaker where
  failures : Nat := 0
  pausedUntil : Option Int := none
  deriving DecidableEq, Repr

/-- The failed attempts since the last success; the log is latest first. -/
def failures (log : List Attempt) : Nat := (log.takeWhile fun x => !x.ok).length

def Breaker.admits (b : Breaker) (now : Int) : Bool := b.pausedUntil.all fun t => t < now

variable {threshold : Nat} {pause : Int}

/-- An answer at `now`. -/
def Breaker.record (threshold : Nat) (pause : Int) (b : Breaker) (ok : Bool) (now : Int) : Breaker :=
  if ok then { b with failures := 0 }
  else ⟨b.failures + 1, if threshold ≤ b.failures + 1 then some (now + pause) else b.pausedUntil⟩

/-- Every attempt of the log from the threshold's failure on, with no success since, began a pause
before `start`. -/
def Apart (threshold : Nat) (pause start : Int) (log : List Attempt) : Prop :=
  ∀ mid x pre, log = mid ++ x :: pre → (∀ z ∈ mid, z.ok = false) → threshold ≤ failures (x :: pre) →
    x.start + pause ≤ start

/-- From the threshold's failure on until a success any two attempts are a pause apart. -/
def Spaced (threshold : Nat) (pause : Int) : List Attempt → Prop
  | [] => True
  | y :: log => Apart threshold pause y.start log ∧ Spaced threshold pause log

/-- The breaker stands as its log says. -/
structure Tallies (threshold : Nat) (pause : Int) (b : Breaker) (log : List Attempt) : Prop where
  failures : b.failures = failures log
  armed : ∀ x pre, log = x :: pre → threshold ≤ b.failures →
    ∃ t, b.pausedUntil = some t ∧ x.start + pause ≤ t
  spaced : Spaced threshold pause log

variable {b : Breaker} {log mid pre : List Attempt} {x : Attempt} {now start answer : Int}

theorem Tallies.fresh : Tallies threshold pause {} [] where
  failures := rfl
  armed x pre h := by cases h
  spaced := trivial

@[simp] theorem failures_nil : failures [] = 0 := rfl

theorem failures_cons (x : Attempt) (log : List Attempt) :
    failures (x :: log) = if x.ok then 0 else failures log + 1 := by
  cases hx : x.ok <;> simp [failures, hx]

theorem failures_append (hmid : ∀ z ∈ mid, z.ok = false) :
    failures (mid ++ pre) = mid.length + failures pre := by
  induction mid with
  | nil => simp
  | cons z mid ih =>
    rw [List.cons_append, failures_cons, hmid z List.mem_cons_self, if_neg Bool.false_ne_true,
      ih fun z' hz' => hmid z' (List.mem_cons_of_mem _ hz'), List.length_cons]
    omega

/-- An attempt that is let through is apart from those before it: the last one paused the breaker,
and the earlier ones are apart from the last. -/
theorem Tallies.apart (h : Tallies threshold pause b log) (hpause : 0 ≤ pause)
    (hadmits : b.admits now = true) (hstart : now ≤ start) : Apart threshold pause start log := by
  rintro mid x pre rfl hmid hx
  have hfail : threshold ≤ b.failures := by
    rw [h.failures, failures_append hmid]
    exact Nat.le_add_left_of_le hx
  have last : ∀ z rest, mid ++ x :: pre = z :: rest → z.start + pause ≤ start := by
    intro z rest hz
    obtain ⟨t, ht, hle⟩ := h.armed z rest hz hfail
    have hlt : t < now := by simpa [Breaker.admits, ht] using hadmits
    exact Int.le_trans hle (Int.le_trans (Int.le_of_lt hlt) hstart)
  cases mid with
  | nil => exact last x pre rfl
  | cons z mid =>
    have hapart : x.start + pause ≤ z.start :=
      h.spaced.1 mid x pre rfl (fun z' hz' => hmid z' (List.mem_cons_of_mem _ hz')) hx
    exact Int.le_trans hapart (Int.le_trans (Int.le_add_of_nonneg_right hpause) (last z _ rfl))

/-- The step lemma. -/
theorem Tallies.record (h : Tallies threshold pause b log) (hthreshold : 0 < threshold)
    (hpause : 0 ≤ pause) (hadmits : b.admits now = true) (hstart : now ≤ start)
    (hanswer : start ≤ answer) (ok : Bool) :
    Tallies threshold pause (b.record threshold pause ok answer) (⟨start, ok⟩ :: log) where
  failures := by
    rw [failures_cons, Breaker.record, ← h.failures]
    cases ok <;> rfl
  armed x pre hlog hfail := by
    cases hlog
    cases ok with
    | true => exact absurd hfail (Nat.not_le.mpr hthreshold)
    | false =>
      simp only [Breaker.record, Bool.false_eq_true, if_false] at hfail ⊢
      rw [if_pos hfail]
      exact ⟨_, rfl, Int.add_le_add_right hanswer _⟩
  spaced := ⟨h.apart hpause hadmits hstart, h.spaced⟩

end CircuitBreaker
