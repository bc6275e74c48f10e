import CueApi.Library.Machine
import CueApi.Library.Pending
import CueApi.Library.Trace

/-! Requests that SELECT a row, decide on what they have seen, and write in a later step, whatever
the row has become. A run in which each writer would decide the same on the row that it meets is as
good as a serial one. -/

namespace Snapshot

open Trace

/-- What a request writes, by the row that it has seen, the UPDATE by id that does it, and whether
something is granted with it. -/
structure Service (Row Req Upd : Type) where
  decide : Req → Row → Option Upd
  write : Upd → Row → Row
  grants : Upd → Bool

/-- A request that has been served: the row of its SELECT, the row that it met at its end, and the
instant of its end. -/
structure Served (Row Req T : Type) where
  req : Req
  seen : Row
  met : Row
  time : T
  deriving DecidableEq, Repr

/-- `served` has the latest first. -/
structure State (P Row Req T : Type) where
  row : Row
  calls : Pending P (Req × Row)
  served : List (Served Row Req T)
  deriving DecidableEq

inductive Action (P Req T : Type)
  | select (p : P) (req : Req)
  | finish (p : P) (time : T)
  | abort (p : P)
  deriving DecidableEq, Repr

variable {P Row Req Upd T : Type} [DecidableEq P] (sv : Service Row Req Upd)

def step (s : State P Row Req T) : Action P Req T → Option (State P Row Req T)
  | .select p req => (s.calls.enter p (req, s.row)).map fun calls => { s with calls }
  | .finish p time =>
      (s.calls.find p).map fun x =>
        { row := (sv.decide x.1 x.2).elim s.row fun u => sv.write u s.row
          calls := s.calls.proceed p none
          served := ⟨x.1, x.2, s.row, time⟩ :: s.served }
  | .abort p => (s.calls.find p).map fun _ => { s with calls := s.calls.proceed p none }

/-- Nobody is calling. -/
def start (row : Row) : State P Row Req T := ⟨row, ∅, []⟩

/-- The request is served so. -/
def checked (c : Served Row Req T → Bool) (s : State P Row Req T) : Action P Req T → Bool
  | .finish p time => (s.calls.find p).all fun x => c ⟨x.1, x.2, s.row, time⟩
  | _ => true

/-- A request that grants something would write the same on the row that it meets. -/
def Service.confirms [DecidableEq Upd] (x : Served Row Req T) : Bool :=
  (sv.decide x.req x.seen).all fun u => !sv.grants u || sv.decide x.req x.met = some u

/-- Nobody has overtaken a request that grants something. -/
def upToDate [DecidableEq Upd] : State P Row Req T → Action P Req T → Bool := checked sv.confirms

variable {sv} {s s' : State P Row Req T} {a : Action P Req T} {row : Row}

/-- The inversion of a step. -/
inductive Steps (sv : Service Row Req Upd) (s : State P Row Req T) :
    Action P Req T → State P Row Req T → Prop
  | select (p : P) (req : Req) (calls : Pending P (Req × Row)) :
      s.calls.enter p (req, s.row) = some calls →
      Steps sv s (.select p req) { s with calls }
  | answered (p : P) (time : T) (req : Req) (seen : Row) : s.calls.find p = some (req, seen) →
      sv.decide req seen = none →
      Steps sv s (.finish p time)
        ⟨s.row, s.calls.proceed p none, ⟨req, seen, s.row, time⟩ :: s.served⟩
  | wrote (p : P) (time : T) (req : Req) (seen : Row) (u : Upd) :
      s.calls.find p = some (req, seen) → sv.decide req seen = some u →
      Steps sv s (.finish p time)
        ⟨sv.write u s.row, s.calls.proceed p none, ⟨req, seen, s.row, time⟩ :: s.served⟩
  | abort (p : P) (x : Req × Row) : s.calls.find p = some x →
      Steps sv s (.abort p) { s with calls := s.calls.proceed p none }

theorem step_cases (h : step sv s a = some s') : Steps sv s a s' := by
  cases a with
  | select p req =>
    obtain ⟨calls, hcalls, rfl⟩ := Option.map_eq_some_iff.mp h
    exact .select p req calls hcalls
  | finish p time =>
    obtain ⟨⟨req, seen⟩, hx, rfl⟩ := Option.map_eq_some_iff.mp h
    cases hd : sv.decide req seen with
    | none =>
      simp only [Option.elim_none]
      exact .answered p time req seen hx hd
    | some u =>
      simp only [Option.elim_some]
      exact .wrote p time req seen u hx hd
  | abort p =>
    obtain ⟨x, hx, rfl⟩ := Option.map_eq_some_iff.mp h
    exact .abort p x hx

/-! ## The log of a run -/

/-- The row after the requests of a log. -/
def Service.replay (sv : Service Row Req Upd) (row : Row) : List (Served Row Req T) → Row
  | [] => row
  | x :: log => (sv.decide x.req x.seen).elim (sv.replay row log) fun u =>
      sv.write u (sv.replay row log)

/-- A request has met the row that the requests before it left, and has seen that or an earlier
one. -/
structure Service.Follows (sv : Service Row Req Upd) (row : Row) (log : List (Served Row Req T))
    (x : Served Row Req T) : Prop where
  met : x.met = sv.replay row log
  seen : ∃ log₀, log₀ <:+ log ∧ x.seen = sv.replay row log₀

/-- The run from `row` has left its log. -/
structure Logged (sv : Service Row Req Upd) (row : Row) (s : State P Row Req T) : Prop where
  left : s.row = sv.replay row s.served
  calls : ∀ y ∈ s.calls.entries, ∃ log, log <:+ s.served ∧ y.2.2 = sv.replay row log
  log : Along (sv.Follows row) s.served

omit [DecidableEq P] in
theorem Logged.start (row : Row) : Logged sv row (start row : State P Row Req T) :=
  ⟨rfl, fun _ hy => (by cases hy), trivial⟩

theorem Logged.leave (hl : Logged sv row s) {p : P} {log : List (Served Row Req T)}
    (hs : s.served <:+ log) : ∀ y ∈ (s.calls.proceed p none).entries,
      ∃ log₀, log₀ <:+ log ∧ y.2.2 = sv.replay row log₀ := by
  intro y hy
  rcases Pending.mem_proceed.mp hy with ⟨_, heq, -⟩ | ⟨hy, -⟩
  · cases heq
  · obtain ⟨log₀, hsuf, heq⟩ := hl.calls y hy
    exact ⟨log₀, hsuf.trans hs, heq⟩

theorem Logged.after (hl : Logged sv row s) (h : step sv s a = some s') : Logged sv row s' := by
  have follows {p : P} {req : Req} {seen : Row} (time : T) (hx : s.calls.find p = some (req, seen)) :
      sv.Follows row s.served ⟨req, seen, s.row, time⟩ :=
    ⟨hl.left, hl.calls _ (Pending.find_iff.mp hx)⟩
  cases step_cases h with
  | select p req calls hcalls =>
    refine ⟨hl.left, fun y hy => ?_, hl.log⟩
    rw [Pending.enter_some hcalls] at hy
    rcases List.mem_cons.mp hy with rfl | hy
    · exact ⟨s.served, List.suffix_refl _, hl.left⟩
    · exact hl.calls y hy
  | answered p time req seen hx hd =>
    refine ⟨?_, hl.leave (List.suffix_cons _ _), follows time hx, hl.log⟩
    simp only [Service.replay, hd, Option.elim_none]
    exact hl.left
  | wrote p time req seen u hx hd =>
    refine ⟨?_, hl.leave (List.suffix_cons _ _), follows time hx, hl.log⟩
    simp only [Service.replay, hd, Option.elim_some]
    rw [hl.left]
  | abort p x hx => exact ⟨hl.left, hl.leave (List.suffix_refl _), hl.log⟩

theorem Logged.run (hl : Logged sv row s) {as : List (Action P Req T)}
    (hr : Machine.run (step sv) s as = some s') : Logged sv row s' :=
  Machine.invariant (C := fun _ _ => true) hl (fun _ _ _ hl _ h => hl.after h) hr
    (Machine.along_true _ _)

theorem step_suffix (h : step sv s a = some s') : s.served <:+ s'.served := by
  cases step_cases h with
  | select p req calls hcalls => exact List.suffix_refl _
  | answered p time req seen hx hd => exact List.suffix_cons _ _
  | wrote p time req seen u hx hd => exact List.suffix_cons _ _
  | abort p x hx => exact List.suffix_refl _

theorem run_suffix {as : List (Action P Req T)} (hr : Machine.run (step sv) s as = some s') :
    s.served <:+ s'.served :=
  Machine.related (I := fun _ => True) (R := fun s s' => s.served <:+ s'.served)
    (C := fun _ _ => true) trivial (fun _ _ _ _ _ _ => trivial) (fun _ => List.suffix_refl _)
    (fun _ _ _ => List.IsSuffix.trans) (fun _ _ _ _ _ h => step_suffix h) hr
    (Machine.along_true _ _)

/-! ## Conditions on a run as conditions on its log -/

theorem checked_step {c : Served Row Req T → Bool} (h : step sv s a = some s') :
    (∀ x ∈ s'.served, c x = true) ↔
      checked c s a = true ∧ ∀ x ∈ s.served, c x = true := by
  cases step_cases h with
  | select p req calls hcalls => simp [checked]
  | abort p x hx => simp [checked]
  | answered p time req seen hx hd => simp [checked, hx]
  | wrote p time req seen u hx hd => simp [checked, hx]

theorem checked_iff {c : Served Row Req T → Bool} {as : List (Action P Req T)}
    (hr : Machine.run (step sv) s as = some s') : (∀ x ∈ s'.served, c x = true) ↔
      Machine.along (step sv) (checked c) s as = true ∧ ∀ x ∈ s.served, c x = true := by
  induction as generalizing s with
  | nil =>
    cases hr
    simp [Machine.along]
  | cons a as ih =>
    obtain ⟨s₁, hs, hr⟩ := Machine.run_cons.mp hr
    rw [ih hr, checked_step hs, Machine.along_cons hs]
    tauto

/-- The same for a run from the start. -/
theorem checked_start {c : Served Row Req T → Bool} {as : List (Action P Req T)}
    (hr : Machine.run (step sv) (start row) as = some s) : (∀ x ∈ s.served, c x = true) ↔
      Machine.along (step sv) (checked c) (start row) as = true :=
  (checked_iff hr).trans (and_iff_left fun _ hx => (by cases hx))

/-- Every request of the log that grants something would have written the same on the row that it
met. -/
def Service.Confirmed [DecidableEq Upd] (sv : Service Row Req Upd) (log : List (Served Row Req T)) :
    Prop := ∀ x ∈ log, sv.confirms x = true

section Confirmed

variable [DecidableEq Upd] {log log₀ : List (Served Row Req T)} {x : Served Row Req T}

theorem confirms_of_decide {u : Upd} (hc : sv.confirms x = true)
    (hd : sv.decide x.req x.seen = some u) (hg : sv.grants u = true) :
    sv.decide x.req x.met = some u := by
  simpa [Service.confirms, hd, hg] using hc

/-- What is kept by each write on the row that it was decided on, and by those that grant nothing on
every row. -/
theorem replay_invariant {I : Row → Prop}
    (keep : ∀ req row u, I row → sv.decide req row = some u → I (sv.write u row))
    (free : ∀ row u, I row → sv.grants u = false → I (sv.write u row))
    (hl : Along (sv.Follows row) log) (hc : sv.Confirmed log) (hs : log₀ <:+ log)
    (hI : I (sv.replay row log₀)) : I (sv.replay row log) := by
  refine Along.invariant_from (J := fun log => sv.Confirmed log → I (sv.replay row log))
    (fun _ => hI) (fun log x _ _ hx ih hc => ?_) hs hl hc
  have hlog : I (sv.replay row log) := ih fun y hy => hc y (List.mem_cons_of_mem _ hy)
  simp only [Service.replay]
  cases hd : sv.decide x.req x.seen with
  | none => exact hlog
  | some u =>
    cases hg : sv.grants u with
    | false => exact free _ u hlog hg
    | true =>
      have hmet := confirms_of_decide (hc x List.mem_cons_self) hd hg
      rw [hx.met] at hmet
      exact keep x.req _ u hlog hmet

/-- Nothing is written any more once the row is such that no request would write. -/
theorem replay_settled {Q : Row → Prop} (stop : ∀ req row, Q row → sv.decide req row = none)
    (all : ∀ u, sv.grants u = true) (hl : Along (sv.Follows row) log) (hc : sv.Confirmed log)
    (hs : log₀ <:+ log) (hQ : Q (sv.replay row log₀)) :
    sv.replay row log = sv.replay row log₀ := by
  refine replay_invariant (I := fun r => r = sv.replay row log₀) (fun req r u heq hd => ?_)
    (fun r u _ hg => ?_) hl hc hs rfl
  · subst heq
    rw [stop req _ hQ] at hd
    cases hd
  · rw [all u] at hg
    cases hg

/-- The requests of the log whose write has such an effect. -/
def Service.granted (sv : Service Row Req Upd) (g : Upd → Bool) (x : Served Row Req T) : Bool :=
  (sv.decide x.req x.seen).any g

/-- What happens at most once: it makes `Q` true, which lasts and rules it out. -/
theorem granted_once {Q : Row → Prop} {g : Upd → Bool} (le : ∀ u, g u = true → sv.grants u = true)
    (after : ∀ req row u, sv.decide req row = some u → g u = true → Q (sv.write u row))
    (keep : ∀ req row u, Q row → sv.decide req row = some u → Q (sv.write u row))
    (free : ∀ row u, Q row → sv.grants u = false → Q (sv.write u row))
    (stop : ∀ req row u, Q row → sv.decide req row = some u → g u = false)
    (hl : Along (sv.Follows row) log) (hc : sv.Confirmed log) :
    log.countP (sv.granted g) ≤ 1 ∧ (0 < log.countP (sv.granted g) → Q (sv.replay row log)) := by
  induction log with
  | nil => simp
  | cons x log ih =>
    obtain ⟨hle, hQ⟩ := ih hl.2 fun y hy => hc y (List.mem_cons_of_mem _ hy)
    cases hd : sv.decide x.req x.seen with
    | none =>
      have hno : sv.granted g x = false := by simp [Service.granted, hd]
      simp only [Service.replay, hd, Option.elim_none]
      rw [List.countP_cons_of_neg (by simp [hno])]
      exact ⟨hle, hQ⟩
    | some u =>
      have hmet (hg : sv.grants u = true) := confirms_of_decide (hc x List.mem_cons_self) hd hg
      rw [hl.1.met] at hmet
      have hx : sv.granted g x = g u := by simp [Service.granted, hd]
      simp only [Service.replay, hd, Option.elim_some]
      cases hgu : g u with
      | false =>
        rw [List.countP_cons_of_neg (by simp [hx, hgu])]
        refine ⟨hle, fun hpos => ?_⟩
        cases hg : sv.grants u with
        | false => exact free _ u (hQ hpos) hg
        | true => exact keep _ _ _ (hQ hpos) (hmet hg)
      | true =>
        have hzero : log.countP (sv.granted g) = 0 := by
          by_contra hne
          have hno := stop _ _ _ (hQ (Nat.pos_of_ne_zero hne)) (hmet (le u hgu))
          rw [hgu] at hno
          cases hno
        rw [List.countP_cons_of_pos (by rw [hx, hgu]), hzero]
        exact ⟨Nat.le_refl _, fun _ => after _ _ _ (hmet (le u hgu)) hgu⟩

/-- The requests of the log that write. -/
def Service.writes (sv : Service Row Req Upd) : Served Row Req T → Bool :=
  sv.granted fun _ => true

omit [DecidableEq Upd] in
theorem replay_unwritten (hno : log.countP sv.writes = 0) (hs : log₀ <:+ log) :
    sv.replay row log = sv.replay row log₀ := by
  obtain ⟨late, rfl⟩ := hs
  induction late with
  | nil => rfl
  | cons x late ih =>
    rw [List.cons_append, List.countP_eq_zero] at hno
    have hd : sv.decide x.req x.seen = none := by
      simpa [Service.writes, Service.granted] using hno x List.mem_cons_self
    simp only [List.cons_append, Service.replay, hd, Option.elim_none]
    exact ih (List.countP_eq_zero.mpr fun y hy => hno y (List.mem_cons_of_mem _ hy))

/-- A writer that is alone in the log meets what it has seen. -/
theorem confirmed_of_single (hl : Along (sv.Follows row) log)
    (hone : log.countP sv.writes ≤ 1) : sv.Confirmed log := by
  induction log with
  | nil => exact fun x hx => (by cases hx)
  | cons x log ih =>
    have hrest : sv.Confirmed log :=
      ih hl.2 ((List.sublist_cons_self x log).countP_le.trans hone)
    refine fun y hy => (List.mem_cons.mp hy).elim (fun heq => ?_) (hrest y)
    subst heq
    cases hd : sv.decide y.req y.seen with
    | none => simp [Service.confirms, hd]
    | some u =>
      rw [List.countP_cons_of_pos (by simp [Service.writes, Service.granted, hd])] at hone
      obtain ⟨log₀, hsuf, hseen⟩ := hl.1.seen
      have hsame : y.met = y.seen := by
        rw [hl.1.met, hseen]
        exact replay_unwritten (by omega) hsuf
      simp [Service.confirms, hsame, hd]

end Confirmed

end Snapshot
