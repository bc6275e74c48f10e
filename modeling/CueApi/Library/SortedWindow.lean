import Mathlib.Algebra.Order.Group.Defs
import Mathlib.Algebra.Order.Sub.Basic
import CueApi.Library.Expiring

/-! A sliding-window limiter over sorted sets in Redis: what is too old goes by ZREMRANGEBYSCORE, what
is left is counted by ZCARD, and a request that is let through is added by ZADD under an EXPIRE of its
own. It decides as a limiter that looks at all that it ever let through. -/

namespace SortedWindow

open Expiring

variable {K T : Type} [DecidableEq K]

/-- Sorted sets by the scores of their members, which are all different. A key that is not there is an
empty set. -/
abbrev Sets (K T : Type) := Store K (List T) T

section Commands

variable [LinearOrder T]

/-- The entry of a key, unless it has vanished. -/
def entry (s : Sets K T) (now : T) (k : K) : Option (Entry (List T) T) :=
  (s k).filter (Entry.live now)

def zscores (s : Sets K T) (now : T) (k : K) : List T := (get s now k).getD []

/-- `ZCARD k`. -/
def zcard (s : Sets K T) (now : T) (k : K) : Nat := (zscores s now k).length

/-- `ZREMRANGEBYSCORE k low high`, both included. A set that it empties is gone. -/
def zremrangebyscore (s : Sets K T) (now : T) (k : K) (low high : T) : Sets K T :=
  Function.update s k ((entry s now k).bind fun en =>
    let kept := en.value.filter fun x => !(low ≤ x && x ≤ high)
    if kept.isEmpty then none else some { en with value := kept })

/-- `ZADD k score member`, with a new member. -/
def zadd (s : Sets K T) (now : T) (k : K) (score : T) : Sets K T :=
  Function.update s k (some ⟨score :: zscores s now k, (entry s now k).bind Entry.expires⟩)

/-- `EXPIRE k`, with the instant at which the key vanishes. -/
def expireAt (s : Sets K T) (now : T) (k : K) (instant : T) : Sets K T :=
  Function.update s k ((entry s now k).map fun en => { en with expires := some instant })

end Commands

/-! ## What is read after each command -/

section Reads

variable [LinearOrder T] {s : Sets K T} {now t : T} {k j : K}

omit [DecidableEq K] in
theorem live_of_le {en : Entry (List T) T} (h : now ≤ t) (hl : en.live t = true) :
    en.live now = true := by
  unfold Entry.live at hl ⊢
  cases he : en.expires with
  | none => rfl
  | some e =>
    rw [he] at hl
    exact decide_eq_true (lt_of_le_of_lt h (of_decide_eq_true hl))

theorem zscores_zremrangebyscore_self {low high : T} (h : now ≤ t) :
    zscores (zremrangebyscore s now k low high) t k =
      (zscores s t k).filter fun x => !(low ≤ x && x ≤ high) := by
  unfold zscores Expiring.get zremrangebyscore entry
  rw [Function.update_self]
  cases s k with
  | none => simp
  | some en =>
    by_cases hl : en.live t = true
    · have hn := live_of_le h hl
      by_cases hk : (en.value.filter fun x => !(low ≤ x && x ≤ high)) = []
      · simp only [Option.filter_some, hl, hn, if_true, Option.bind_some, List.isEmpty_iff, hk,
          Option.filter_none, Option.map_none, Option.getD_none, Option.map_some, Option.getD_some]
      · have hlive : Entry.live t
            ⟨en.value.filter fun x => !(low ≤ x && x ≤ high), en.expires⟩ = true := hl
        simp only [Option.filter_some, hl, hn, if_true, Option.bind_some, List.isEmpty_iff, hk,
          if_false, hlive, Option.map_some, Option.getD_some]
    · have hdead : ∀ v : List T, Entry.live t ⟨v, en.expires⟩ = false := fun _ =>
        Bool.eq_false_iff.mpr hl
      cases hn : en.live now with
      | false => simp [Option.filter_some, hl, hn]
      | true =>
        simp only [Option.filter_some, hl, hn, if_true, Option.bind_some]
        split <;> simp [Option.filter_some, hdead]

theorem zscores_zremrangebyscore_ne {low high : T} (h : j ≠ k) :
    zscores (zremrangebyscore s now k low high) t j = zscores s t j := by
  unfold zscores Expiring.get zremrangebyscore
  rw [Function.update_of_ne h]

/-- An addition under an expiry of its own. -/
theorem zscores_expireAt_self {x e : T} :
    zscores (expireAt (zadd s now k x) now k e) t k = if t < e then x :: zscores s now k else [] := by
  have hadded : entry (zadd s now k x) now k =
      some ⟨x :: zscores s now k, (entry s now k).bind Entry.expires⟩ := by
    rw [entry, zadd, Function.update_self, Option.filter_some]
    refine if_pos ?_
    cases hen : entry s now k with
    | none => rfl
    | some en => exact (Option.filter_eq_some_iff.mp hen).2
  unfold zscores Expiring.get expireAt
  rw [Function.update_self, hadded]
  by_cases ht : t < e <;> simp [Option.filter_some, Entry.live, ht, zscores, Expiring.get]

theorem zscores_expireAt_ne {x e : T} (h : j ≠ k) :
    zscores (expireAt (zadd s now k x) now k e) t j = zscores s t j := by
  unfold zscores Expiring.get expireAt zadd
  rw [Function.update_of_ne h, Function.update_of_ne h]

end Reads

/-! ## Limiters -/

/-- The window that counts, and how long a set stays after its last addition. -/
structure Limiter (T : Type) [AddCommGroup T] [LinearOrder T] where
  window : T
  ttl : T
  window_pos : 0 < window
  window_le : window ≤ ttl

structure Request (K T : Type) where
  key : K
  limit : Nat
  now : T
  deriving DecidableEq, Repr

variable [AddCommGroup T] [LinearOrder T]

namespace Limiter

variable (lim : Limiter T)

/-- The decision on a request, and what Redis holds then. -/
def check (s : Sets K T) (r : Request K T) : Bool × Sets K T :=
  let s := zremrangebyscore s r.now r.key 0 (r.now - lim.window)
  if r.limit ≤ zcard s r.now r.key then (false, s)
  else (true, expireAt (zadd s r.now r.key r.now) r.now r.key (r.now + lim.ttl))

end Limiter

section Runs

-- a handler of requests, which lets each through or not
variable {S α β : Type} (f : S → α → Bool × S)

/-- One request after the other: the state then. -/
def after : S → List α → S
  | s, [] => s
  | s, a :: as => after (f s a).2 as

/-- The requests that were let through. -/
def accepted : S → List α → List α
  | _, [] => []
  | s, a :: as => if (f s a).1 then a :: accepted (f s a).2 as else accepted (f s a).2 as

/-- The decisions. -/
def decisions : S → List α → List Bool
  | _, [] => []
  | s, a :: as => (f s a).1 :: decisions (f s a).2 as

variable {f} {g : S → β → Bool × S} {req : α → β}

theorem after_map (h : ∀ s a, f s a = g s (req a)) (s : S) (as : List α) :
    after g s (as.map req) = after f s as := by
  induction as generalizing s with
  | nil => rfl
  | cons a as ih =>
    rw [List.map_cons, after, after, ← h]
    exact ih _

theorem accepted_map (h : ∀ s a, f s a = g s (req a)) (s : S) (as : List α) :
    accepted g s (as.map req) = (accepted f s as).map req := by
  induction as generalizing s with
  | nil => rfl
  | cons a as ih =>
    rw [List.map_cons, accepted, accepted, ← h, ih]
    split <;> rfl

theorem decisions_map (h : ∀ s a, f s a = g s (req a)) (s : S) (as : List α) :
    decisions g s (as.map req) = decisions f s as := by
  induction as generalizing s with
  | nil => rfl
  | cons a as ih =>
    rw [List.map_cons, decisions, decisions, ← h, ih]

end Runs

/-- Times do not go back. -/
def Timely : T → List (Request K T) → Prop
  | _, [] => True
  | clock, r :: rs => clock ≤ r.now ∧ Timely r.now rs

/-! ## The ideal limiter -/

/-- How many requests of the key have a time in `(t - window, t]`. -/
def hits (window : T) (k : K) (t : T) (log : List (Request K T)) : Nat :=
  log.countP fun r => r.key = k ∧ t - window < r.now ∧ r.now ≤ t

/-- It looks at all that it let through. -/
def ideal (window : T) : List (Request K T) → List (Request K T) → List Bool
  | _, [] => []
  | log, r :: rs =>
      if hits window r.key r.now log < r.limit then true :: ideal window (log ++ [r]) rs
      else false :: ideal window log rs

/-! ## The invariant -/

/-- How many scores are later than `u - window`. -/
def recent (window u : T) (scores : List T) : Nat := scores.countP fun x => u - window < x

/-- How many requests of the key are. -/
def recentOf (window : T) (k : K) (u : T) (log : List (Request K T)) : Nat :=
  log.countP fun r => r.key = k ∧ u - window < r.now

/-- Whatever the sets have lost by any later reading at `v` will not count at `u` either. -/
structure Keeps (window : T) (s : Sets K T) (clock : T) (log : List (Request K T)) : Prop where
  clock_nonneg : 0 ≤ clock
  past : ∀ r ∈ log, r.now ≤ clock
  nonneg : ∀ k t, clock ≤ t → ∀ x ∈ zscores s t k, 0 ≤ x
  agrees : ∀ k v u, clock ≤ v → v ≤ u → recent window u (zscores s v k) = recentOf window k u log

variable {window : T} {s : Sets K T} {clock now : T} {log : List (Request K T)} {r : Request K T}

theorem keeps_start : Keeps window (fun _ : K => none) 0 [] where
  clock_nonneg := le_refl _
  past _ h := by cases h
  nonneg _ _ _ _ h := by cases h
  agrees _ _ _ _ _ := rfl

theorem recentOf_eq_hits (h : Keeps window s clock log) (hc : clock ≤ now) (k : K) :
    recentOf window k now log = hits window k now log := by
  refine List.countP_congr fun r hr => ?_
  have hpast := (h.past r hr).trans hc
  simp [hpast]

variable [IsOrderedAddMonoid T]

/-- What goes by ZREMRANGEBYSCORE is too old to count later. -/
theorem recent_trim {u : T} {scores : List T} (h : now ≤ u) :
    recent window u (scores.filter fun x => !(0 ≤ x && x ≤ now - window)) = recent window u scores := by
  unfold recent
  rw [List.countP_filter]
  refine List.countP_congr fun x _ => ?_
  simp only [Bool.and_eq_true, decide_eq_true_eq, and_iff_left_iff_imp]
  intro hx
  have hlt : now - window < x := lt_of_le_of_lt (sub_le_sub_right h window) hx
  simp [hlt]

theorem Keeps.trim (h : Keeps window s clock log) (hc : clock ≤ now) (k : K) :
    Keeps window (zremrangebyscore s now k 0 (now - window)) now log where
  clock_nonneg := h.clock_nonneg.trans hc
  past r hr := (h.past r hr).trans hc
  nonneg j t ht x hx := by
    refine h.nonneg j t (hc.trans ht) x ?_
    by_cases hj : j = k
    · subst hj
      rw [zscores_zremrangebyscore_self ht] at hx
      exact (List.mem_filter.mp hx).1
    · rwa [zscores_zremrangebyscore_ne hj] at hx
  agrees j v u hv hu := by
    rw [← h.agrees j v u (hc.trans hv) hu]
    by_cases hj : j = k
    · subst hj
      rw [zscores_zremrangebyscore_self hv, recent_trim (hv.trans hu)]
    · rw [zscores_zremrangebyscore_ne hj]

theorem Keeps.add (lim : Limiter T) (h : Keeps lim.window s r.now log) :
    Keeps lim.window (expireAt (zadd s r.now r.key r.now) r.now r.key (r.now + lim.ttl)) r.now
      (log ++ [r]) where
  clock_nonneg := h.clock_nonneg
  past r' hr' := by
    rcases List.mem_append.mp hr' with hr' | hr'
    · exact h.past r' hr'
    · rw [List.mem_singleton.mp hr']
  nonneg j t ht x hx := by
    by_cases hj : j = r.key
    · subst hj
      rw [zscores_expireAt_self] at hx
      split at hx
      · rcases List.mem_cons.mp hx with rfl | hx
        · exact h.clock_nonneg
        · exact h.nonneg _ _ (le_refl _) x hx
      · cases hx
    · rw [zscores_expireAt_ne hj] at hx
      exact h.nonneg j t ht x hx
  agrees j v u hv hu := by
    have hlog : recentOf lim.window j u (log ++ [r]) = recentOf lim.window j u log +
        if r.key = j ∧ u - lim.window < r.now then 1 else 0 := by
      simp [recentOf, List.countP_append, List.countP_singleton]
    by_cases hj : j = r.key
    · subst hj
      rw [zscores_expireAt_self, hlog]
      split
      · rw [← h.agrees r.key r.now u (le_refl _) (hv.trans hu)]
        simp [recent, List.countP_cons]
      · -- the set has vanished, and with it what no longer counts
        rename_i hgone
        have hold : ∀ x, x ≤ r.now → ¬ u - lim.window < x := by
          intro x hx
          have hle : r.now + lim.window ≤ u :=
            (add_le_add_right lim.window_le r.now).trans ((not_lt.mp hgone).trans hu)
          exact not_lt.mpr (hx.trans (le_sub_iff_add_le.mpr hle))
        have hnone : recentOf lim.window r.key u log = 0 :=
          List.countP_eq_zero.mpr fun r' hr' => by simp [hold _ (h.past r' hr')]
        simp [hnone, hold r.now (le_refl _), recent]
    · rw [zscores_expireAt_ne hj, hlog, h.agrees j v u hv hu]
      simp [Ne.symm hj]

/-! ## One request -/

variable (lim : Limiter T)

omit [IsOrderedAddMonoid T] in
/-- After the trim, what is left is what counts. -/
theorem zcard_trim (h : Keeps window s clock log) (hc : clock ≤ now) (k : K) :
    zcard (zremrangebyscore s now k 0 (now - window)) now k = hits window k now log := by
  rw [← recentOf_eq_hits h hc, ← h.agrees k now now hc (le_refl _)]
  unfold zcard recent
  rw [zscores_zremrangebyscore_self (le_refl _), List.countP_eq_length_filter]
  refine congrArg List.length (List.filter_congr fun x hx => ?_)
  simp only [h.nonneg k now hc x hx, decide_true, Bool.true_and, ← decide_not, not_le]

omit [IsOrderedAddMonoid T] in
/-- The two outcomes of a check, on the trimmed sets. -/
theorem check_cases (s : Sets K T) (r : Request K T) :
    (lim.check s r = (false, zremrangebyscore s r.now r.key 0 (r.now - lim.window)) ∧
      r.limit ≤ zcard (zremrangebyscore s r.now r.key 0 (r.now - lim.window)) r.now r.key) ∨
    (lim.check s r = (true, expireAt
        (zadd (zremrangebyscore s r.now r.key 0 (r.now - lim.window)) r.now r.key r.now) r.now r.key
        (r.now + lim.ttl)) ∧
      zcard (zremrangebyscore s r.now r.key 0 (r.now - lim.window)) r.now r.key < r.limit) := by
  by_cases hfull : r.limit ≤ zcard (zremrangebyscore s r.now r.key 0 (r.now - lim.window)) r.now r.key
  · exact .inl ⟨if_pos hfull, hfull⟩
  · exact .inr ⟨if_neg hfull, Nat.not_le.mp hfull⟩

omit [IsOrderedAddMonoid T] in
theorem check_fst (h : Keeps lim.window s clock log) (hc : clock ≤ r.now) :
    (lim.check s r).1 = true ↔ hits lim.window r.key r.now log < r.limit := by
  have hcard := zcard_trim h hc r.key
  rcases check_cases lim s r with ⟨heq, hfull⟩ | ⟨heq, hroom⟩
  · rw [hcard] at hfull
    simp [heq, hfull]
  · rw [hcard] at hroom
    simp [heq, hroom]

theorem Keeps.reject (h : Keeps lim.window s clock log) (hc : clock ≤ r.now)
    (hno : (lim.check s r).1 = false) : Keeps lim.window (lim.check s r).2 r.now log := by
  rcases check_cases lim s r with ⟨heq, -⟩ | ⟨heq, -⟩ <;> rw [heq] at hno ⊢
  · exact h.trim hc r.key
  · cases hno

theorem Keeps.accept (h : Keeps lim.window s clock log) (hc : clock ≤ r.now)
    (hyes : (lim.check s r).1 = true) : Keeps lim.window (lim.check s r).2 r.now (log ++ [r]) := by
  rcases check_cases lim s r with ⟨heq, -⟩ | ⟨heq, -⟩ <;> rw [heq] at hyes ⊢
  · cases hyes
  · exact (h.trim hc r.key).add lim

/-! ## Runs -/

variable {lim} {rs post : List (Request K T)}

omit [DecidableEq K] [AddCommGroup T] [IsOrderedAddMonoid T] in
theorem Timely.weaken {clock' : T} (h : Timely clock rs) (hc : clock' ≤ clock) : Timely clock' rs := by
  cases rs with
  | nil => trivial
  | cons r rs => exact ⟨hc.trans h.1, h.2⟩

omit [DecidableEq K] [AddCommGroup T] [IsOrderedAddMonoid T] in
theorem timely_left (h : Timely clock (rs ++ post)) : Timely clock rs := by
  induction rs generalizing clock with
  | nil => trivial
  | cons r rs ih => exact ⟨h.1, ih h.2⟩

/-- After a run the sets keep what was let through. -/
theorem Keeps.run (h : Keeps lim.window s clock log) (ht : Timely clock (rs ++ post)) :
    ∃ clock', Keeps lim.window (after lim.check s rs) clock' (log ++ accepted lim.check s rs) ∧
      Timely clock' post := by
  induction rs generalizing s clock log with
  | nil => exact ⟨clock, by simpa [SortedWindow.after, SortedWindow.accepted] using h, ht⟩
  | cons r rs ih =>
    obtain ⟨hc, ht⟩ := ht
    unfold SortedWindow.after SortedWindow.accepted
    cases hcheck : (lim.check s r).1 with
    | false =>
      rw [if_neg (by simp)]
      exact ih (h.reject lim hc hcheck) ht
    | true =>
      rw [if_pos rfl, ← List.singleton_append, ← List.append_assoc]
      exact ih (h.accept lim hc hcheck) ht

/-- The limiter decides as the ideal one. -/
theorem decisions_eq (h : Keeps lim.window s clock log) (ht : Timely clock rs) :
    decisions lim.check s rs = ideal lim.window log rs := by
  induction rs generalizing s clock log with
  | nil => rfl
  | cons r rs ih =>
    obtain ⟨hc, ht⟩ := ht
    unfold SortedWindow.decisions ideal
    have hiff := check_fst lim h hc
    split
    · rename_i hroom
      have hcheck := hiff.mpr hroom
      rw [hcheck, ih (h.accept lim hc hcheck) ht]
    · rename_i hfull
      have hcheck := Bool.eq_false_iff.mpr (mt hiff.mp hfull)
      rw [hcheck, ih (h.reject lim hc hcheck) ht]

/-- A rejected request changes no later decision. -/
theorem decisions_rejected (h : Keeps lim.window s clock log) (ht : Timely clock (r :: post))
    (hno : (lim.check s r).1 = false) :
    decisions lim.check (lim.check s r).2 post = decisions lim.check s post := by
  rw [decisions_eq (h.reject lim ht.1 hno) ht.2, decisions_eq h (ht.2.weaken ht.1)]

/-- Times of which no two are a window apart. -/
def Narrow (window : T) (W : T → Prop) : Prop := ∀ x y, W x → W y → y - window < x

theorem narrow_ioc (window t : T) : Narrow window fun x => t - window < x ∧ x ≤ t :=
  fun _ _ hx hy => lt_of_le_of_lt (sub_le_sub_right hy.2 window) hx.1

theorem narrow_ico (window t : T) : Narrow window fun x => t ≤ x ∧ x < t + window :=
  fun _ _ hx hy => lt_of_lt_of_le (sub_lt_iff_lt_add.mpr hy.2) hx.1

/-- Within such times no more than the limit are let through. -/
theorem accepted_bounded {W : T → Prop} [DecidablePred W] (hW : Narrow lim.window W) {k : K} {n : Nat}
    (hlimit : ∀ r ∈ rs, r.key = k → r.limit ≤ n) (h : Keeps lim.window s clock log)
    (ht : Timely clock rs) (hlog : (log.countP fun r => r.key = k ∧ W r.now) ≤ n) :
    ((log ++ accepted lim.check s rs).countP fun r => r.key = k ∧ W r.now) ≤ n := by
  induction rs generalizing s clock log with
  | nil => simpa [SortedWindow.accepted] using hlog
  | cons r rs ih =>
    obtain ⟨hc, ht⟩ := ht
    obtain ⟨hr, hlimit⟩ := List.forall_mem_cons.mp hlimit
    unfold SortedWindow.accepted
    cases hcheck : (lim.check s r).1 with
    | false =>
      rw [if_neg (by simp)]
      exact ih hlimit (h.reject lim hc hcheck) ht hlog
    | true =>
      rw [if_pos rfl, ← List.singleton_append, ← List.append_assoc]
      refine ih hlimit (h.accept lim hc hcheck) ht ?_
      rw [List.countP_append, List.countP_singleton]
      by_cases hin : r.key = k ∧ W r.now
      · -- whatever lies in `W` counts against the request
        have hle : (log.countP fun r => r.key = k ∧ W r.now) ≤ hits lim.window r.key r.now log := by
          refine List.countP_mono_left fun r' hr' hmem => ?_
          obtain ⟨hk, hw⟩ := of_decide_eq_true hmem
          exact decide_eq_true
            ⟨hk.trans hin.1.symm, hW _ _ hw hin.2, (h.past r' hr').trans hc⟩
        have hroom := (check_fst lim h hc).mp hcheck
        have hn := hr hin.1
        simp only [hin, and_self, decide_true, if_true]
        omega
      · simp only [hin, decide_false, Bool.false_eq_true, if_false]
        omega

/-! ## All of it -/

/-- From empty sets, a handler that reads a request as `req` lets it through exactly when fewer than
its limit are in the window that ends with it; what it lets through keeps to the limit in every
half-open window; and what it rejects changes no later decision. -/
def Exact {α : Type} (window : T) (f : Sets K T → α → Bool × Sets K T) (req : α → Request K T) : Prop :=
  ∀ (as : List α) (a : α) (post : List α), Timely 0 ((as ++ a :: post).map req) →
    let s := after f (fun _ => none) as
    let log := (accepted f (fun _ => none) as).map req
    ((f s a).1 = true ↔ hits window (req a).key (req a).now log < (req a).limit) ∧
      ((f s a).1 = false → decisions f (f s a).2 post = decisions f s post) ∧
      ∀ (k : K) (n : Nat), (∀ b ∈ as, (req b).key = k → (req b).limit ≤ n) → ∀ t,
        hits window k t log ≤ n ∧
          (log.countP fun r => r.key = k ∧ t ≤ r.now ∧ r.now < t + window) ≤ n

/-- The limiter is exact, whatever its sets are called and however long they stay. -/
theorem Limiter.exact (lim : Limiter T) {α : Type} {f : Sets K T → α → Bool × Sets K T}
    {req : α → Request K T} (hf : ∀ s a, f s a = lim.check s (req a)) : Exact lim.window f req := by
  intro as a post ht
  dsimp only
  rw [List.map_append, List.map_cons] at ht
  rw [← accepted_map hf, ← after_map hf]
  have hkeeps : Keeps lim.window (fun _ : K => none) 0 [] := keeps_start
  obtain ⟨clock, hkeeps, hlater⟩ := hkeeps.run ht
  rw [List.nil_append] at hkeeps
  refine ⟨?_, ?_, fun k n hlimit t => ?_⟩
  · rw [hf]
    exact check_fst lim hkeeps hlater.1
  · intro hno
    rw [← decisions_map hf, ← decisions_map hf, hf]
    exact decisions_rejected hkeeps hlater (hf _ a ▸ hno)
  · have hlimits : ∀ r ∈ as.map req, r.key = k → r.limit ≤ n := by
      intro r hr
      obtain ⟨b, hb, rfl⟩ := List.mem_map.mp hr
      exact hlimit b hb
    have htimely := timely_left ht
    exact ⟨accepted_bounded (narrow_ioc lim.window t) hlimits keeps_start htimely (Nat.zero_le n),
      accepted_bounded (narrow_ico lim.window t) hlimits keeps_start htimely (Nat.zero_le n)⟩

end SortedWindow
