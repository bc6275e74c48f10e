import Mathlib.Data.List.Nodup
import Mathlib.Data.List.Perm.Subperm
import CueApi.Library.Expiring
import CueApi.Library.Machine

/-! Fixed-window counters in a store with expiring keys: calls that count themselves with INCR and, when
they read 1, send an EXPIRE. Any number of them run at a time, and each command may raise or be the last
one before a crash. -/

namespace FixedWindow

open Expiring (Entry Store)

/-! ## Limiters -/

structure Check (K ω : Type) where
  key : K
  limit : Nat
  window : Nat
  exceeded : ω

/-- Checks one after another; `failed` is what the code answers where a command raises. -/
structure Limiter (K ω : Type) where
  checks : List (Check K ω)
  passed : ω
  failed : ω

inductive Phase
  | counting
  /-- The INCR read 1, in this window of the key. -/
  | expiring (window : Nat)
  deriving DecidableEq, Repr

structure Call (K ω : Type) where
  limiter : Limiter K ω
  check : Check K ω
  rest : List (Check K ω)
  phase : Phase := .counting

/-- A call that got past a check, in a window of its key: with the count it read, or without one where
a command raised and the code went on. -/
structure Pass (K : Type) where
  key : K
  window : Nat
  limit : Nat
  count : Option Nat
  deriving DecidableEq, Repr

variable {K ω ρ : Type}

/-- `windows` tells how often each key was created. -/
structure State (K ω : Type) where
  clock : Int
  store : Store K Nat Int := fun _ => none
  windows : K → Nat := fun _ => 0
  calls : Nat → Option (Call K ω) := fun _ => none
  passes : List (Pass K) := []
  ended : List (Nat × ω) := []

/-- What becomes of a command: its reply comes; or the client raises, or the process dies, once the
server has executed it or before. -/
inductive Reply
  | answered
  | raised (executed : Bool)
  | died (executed : Bool)
  deriving DecidableEq, Repr

def Reply.executed : Reply → Bool
  | .answered => true
  | .raised executed => executed
  | .died executed => executed

inductive Event (ρ : Type)
  | start (c : Nat) (request : ρ)
  | wait (time : Nat)
  | redis (c : Nat) (reply : Reply)

section Steps

variable [DecidableEq K]

/-- The key is there. -/
def State.has (s : State K ω) (k : K) : Bool := (Expiring.get s.store s.clock k).isSome

def State.incr (s : State K ω) (k : K) : Nat × State K ω :=
  ((Expiring.incr s.store s.clock k).1,
    { s with
      store := (Expiring.incr s.store s.clock k).2
      windows := if s.has k then s.windows else Function.update s.windows k (s.windows k + 1) })

def State.expire (s : State K ω) (k : K) (window : Nat) : State K ω :=
  { s with store := Expiring.expire s.store s.clock k (s.clock + window) }

/-- The call is over or its process is. -/
def State.leave (s : State K ω) (c : Nat) : State K ω :=
  { s with calls := Function.update s.calls c none }

def State.answer (s : State K ω) (c : Nat) (o : ω) : State K ω :=
  { s.leave c with ended := (c, o) :: s.ended }

def State.enter (s : State K ω) (c : Nat) (call : Call K ω) : State K ω :=
  { s with calls := Function.update s.calls c (some call) }

def State.begin (s : State K ω) (c : Nat) (limiter : Limiter K ω) : State K ω :=
  match limiter.checks with
  | [] => s.answer c limiter.passed
  | check :: rest => s.enter c { limiter, check, rest }

def State.pass (s : State K ω) (p : Pass K) : State K ω := { s with passes := p :: s.passes }

/-- The next check, or the end. -/
def State.proceed (s : State K ω) (c : Nat) (call : Call K ω) : State K ω :=
  match call.rest with
  | [] => s.answer c call.limiter.passed
  | check :: rest => s.enter c { limiter := call.limiter, check, rest }

/-- The count against the limit. -/
def State.decide (s : State K ω) (c : Nat) (call : Call K ω) (window count : Nat) : State K ω :=
  if call.check.limit < count then s.answer c call.check.exceeded
  else (s.pass ⟨call.check.key, window, call.check.limit, some count⟩).proceed c call

variable [DecidableEq ω]

/-- The passes that no count decided. -/
def unchecked (s : State K ω) (call : Call K ω) : List (Pass K) :=
  if call.limiter.failed = call.limiter.passed then
    (call.check :: call.rest).map fun check => ⟨check.key, s.windows check.key, check.limit, none⟩
  else []

/-- The handler of the exception. -/
def State.raise (s : State K ω) (c : Nat) (call : Call K ω) : State K ω :=
  { s.answer c call.limiter.failed with passes := unchecked s call ++ s.passes }

/-- INCR, and what comes of its reply. -/
def State.count (s : State K ω) (c : Nat) (call : Call K ω) : Reply → State K ω
  | .answered =>
      let (count, s') := s.incr call.check.key
      if count = 1 then s'.enter c { call with phase := .expiring (s'.windows call.check.key) }
      else s'.decide c call (s'.windows call.check.key) count
  | .raised executed => (if executed then (s.incr call.check.key).2 else s).raise c call
  | .died executed => (if executed then (s.incr call.check.key).2 else s).leave c

/-- EXPIRE, and what comes of its reply. -/
def State.limitLife (s : State K ω) (c : Nat) (call : Call K ω) (window : Nat) : Reply → State K ω
  | .answered => (s.expire call.check.key call.check.window).decide c call window 1
  | .raised executed => (if executed then s.expire call.check.key call.check.window else s).raise c call
  | .died executed => (if executed then s.expire call.check.key call.check.window else s).leave c

variable (limiter : ρ → Limiter K ω)

def step (s : State K ω) : Event ρ → Option (State K ω)
  | .start c request => if (s.calls c).isNone then some (s.begin c (limiter request)) else none
  | .wait time => some { s with clock := s.clock + time }
  | .redis c reply => (s.calls c).map fun call =>
      match call.phase with
      | .counting => s.count c call reply
      | .expiring window => s.limitLife c call window reply

end Steps

variable {s s' : State K ω} {c c' : Nat} {call call' : Call K ω} {k : K} {g n : Nat} {p : Pass K}

/-! ## What a call changes when it goes on or ends -/

/-- Nothing but its own place, from which it sends an INCR next if anything. -/
structure Leaves (c : Nat) (s s' : State K ω) : Prop where
  clock : s'.clock = s.clock
  store : s'.store = s.store
  windows : s'.windows = s.windows
  calls : ∃ place, (∀ call, place = some call → call.phase = .counting) ∧
    s'.calls = Function.update s.calls c place

theorem leaves_leave : Leaves c s (s.leave c) := ⟨rfl, rfl, rfl, none, nofun, rfl⟩

theorem leaves_answer (o : ω) : Leaves c s (s.answer c o) := ⟨rfl, rfl, rfl, none, nofun, rfl⟩

theorem leaves_enter (h : call.phase = .counting) : Leaves c s (s.enter c call) := by
  refine ⟨rfl, rfl, rfl, some call, fun call' heq => ?_, rfl⟩
  cases heq
  exact h

theorem leaves_begin (limiter : Limiter K ω) : Leaves c s (s.begin c limiter) := by
  unfold State.begin
  split
  · exact leaves_answer _
  · exact leaves_enter rfl

theorem leaves_proceed (s : State K ω) (c : Nat) (call : Call K ω) : Leaves c s (s.proceed c call) := by
  unfold State.proceed
  split
  · exact leaves_answer _
  · exact leaves_enter rfl

theorem leaves_decide (s : State K ω) (c : Nat) (call : Call K ω) (g n : Nat) :
    Leaves c s (s.decide c call g n) := by
  unfold State.decide
  split
  · exact leaves_answer _
  · obtain ⟨hclock, hstore, hwindows, hcalls⟩ :=
      leaves_proceed (s.pass ⟨call.check.key, g, call.check.limit, some n⟩) c call
    exact ⟨hclock, hstore, hwindows, hcalls⟩

theorem leaves_raise [DecidableEq ω] : Leaves c s (s.raise c call) :=
  ⟨rfl, rfl, rfl, none, nofun, rfl⟩

/-! ## Which counters are about to get their EXPIRE -/

def Settling (calls : Nat → Option (Call K ω)) (k : K) : Prop :=
  ∃ c call g, calls c = some call ∧ call.phase = .expiring g ∧ call.check.key = k

/-- The INCR of a call is not in the way of an EXPIRE. -/
theorem Leaves.settling (h : Leaves c s s') (hc : ∀ call, s.calls c = some call → call.phase = .counting) :
    Settling s'.calls k ↔ Settling s.calls k := by
  obtain ⟨-, -, -, place, hplace, hcalls⟩ := h
  rw [hcalls]
  constructor
  · rintro ⟨c', call, g, hc', hphase, hkey⟩
    by_cases heq : c' = c
    · subst heq
      rw [Function.update_self] at hc'
      rw [hplace call hc'] at hphase
      cases hphase
    · rw [Function.update_of_ne heq] at hc'
      exact ⟨c', call, g, hc', hphase, hkey⟩
  · rintro ⟨c', call, g, hc', hphase, hkey⟩
    have heq : c' ≠ c := by
      rintro rfl
      rw [hc call hc'] at hphase
      cases hphase
    exact ⟨c', call, g, (Function.update_of_ne heq ..).trans hc', hphase, hkey⟩

theorem Leaves.expiring (h : Leaves c s s') (hc : s'.calls c' = some call')
    (hphase : call'.phase = .expiring g) : c' ≠ c ∧ s.calls c' = some call' := by
  obtain ⟨-, -, -, place, hplace, hcalls⟩ := h
  rw [hcalls] at hc
  by_cases heq : c' = c
  · subst heq
    rw [Function.update_self] at hc
    rw [hplace call' hc] at hphase
    cases hphase
  · rw [Function.update_of_ne heq] at hc
    exact ⟨heq, hc⟩

/-! ## The invariant -/

/-- A count is issued once in a window. -/
def ticket (p : Pass K) : Option (K × Nat × Nat) := p.count.map fun n => (p.key, p.window, n)

structure Inv (s : State K ω) : Prop where
  positive : ∀ k en, s.store k = some en → 1 ≤ en.value
  /-- A counter whose EXPIRE is to come has no time to live, so that its window goes on. -/
  pending : ∀ c call g, s.calls c = some call → call.phase = .expiring g →
    g = s.windows call.check.key ∧ ∃ en, s.store call.check.key = some en ∧ en.expires = none
  one : ∀ c call g c' call' g', s.calls c = some call → call.phase = .expiring g →
    s.calls c' = some call' → call'.phase = .expiring g' → call.check.key = call'.check.key → c = c'
  issued : ∀ p ∈ s.passes, ∀ n, p.count = some n → 1 ≤ n ∧ n ≤ p.limit ∧
    p.window ≤ s.windows p.key ∧
    (p.window = s.windows p.key → ∃ en, s.store p.key = some en ∧ n ≤ en.value)
  fresh : ∀ c call g, s.calls c = some call → call.phase = .expiring g →
    ∀ p ∈ s.passes, p.key = call.check.key → p.window = g → p.count ≠ some 1
  once : (s.passes.filterMap ticket).Nodup

theorem inv_start (now : Int) : Inv ({ clock := now } : State K ω) :=
  ⟨nofun, nofun, nofun, nofun, nofun, List.nodup_nil⟩

theorem Inv.leaves (h : Inv s) (hl : Leaves c s s') (hp : s'.passes = s.passes) : Inv s' := by
  constructor
  · rw [hl.store]
    exact h.positive
  · intro c' call g hc' hphase
    obtain ⟨-, hold⟩ := hl.expiring hc' hphase
    rw [hl.store, hl.windows]
    exact h.pending c' call g hold hphase
  · intro c₁ call₁ g₁ c₂ call₂ g₂ h₁ hphase₁ h₂ hphase₂ hkey
    exact h.one c₁ call₁ g₁ c₂ call₂ g₂ (hl.expiring h₁ hphase₁).2 hphase₁ (hl.expiring h₂ hphase₂).2
      hphase₂ hkey
  · rw [hp, hl.store, hl.windows]
    exact h.issued
  · intro c' call g hc' hphase
    rw [hp]
    exact h.fresh c' call g (hl.expiring hc' hphase).2 hphase
  · rw [hp]
    exact h.once

/-- Passes without a count. -/
theorem Inv.unchecked {ps : List (Pass K)} (h : Inv s) (hps : ∀ p ∈ ps, p.count = none) :
    Inv { s with passes := ps ++ s.passes } := by
  constructor
  · exact h.positive
  · exact h.pending
  · exact h.one
  · intro p hp n hn
    rcases List.mem_append.mp hp with hp | hp
    · rw [hps p hp] at hn
      cases hn
    · exact h.issued p hp n hn
  · intro c call g hc hphase p hp hkey hwindow
    rcases List.mem_append.mp hp with hp | hp
    · rw [hps p hp]
      nofun
    · exact h.fresh c call g hc hphase p hp hkey hwindow
  · have hnone : ps.filterMap ticket = [] := by
      refine List.filterMap_eq_nil_iff.mpr fun p hp => ?_
      rw [ticket, hps p hp]
      rfl
    rw [List.filterMap_append, hnone, List.nil_append]
    exact h.once

/-- The count of a pass that no other has in the window. -/
structure New (s : State K ω) (k : K) (g n : Nat) : Prop where
  positive : 1 ≤ n
  window : g = s.windows k
  entry : ∃ en, s.store k = some en ∧ n ≤ en.value
  unissued : ∀ p ∈ s.passes, p.key = k → p.window = g → p.count ≠ some n

theorem Inv.pass (h : Inv s) {limit : Nat} (hnew : New s k g n) (hlimit : n ≤ limit)
    (hone : n = 1 → ¬ Settling s.calls k) : Inv (s.pass ⟨k, g, limit, some n⟩) := by
  constructor
  · exact h.positive
  · exact h.pending
  · exact h.one
  · intro p hp m hm
    rcases List.mem_cons.mp hp with rfl | hp
    · cases hm
      exact ⟨hnew.positive, hlimit, Nat.le_of_eq hnew.window, fun _ => hnew.entry⟩
    · exact h.issued p hp m hm
  · intro c call g' hc hphase p hp hkey hwindow
    rcases List.mem_cons.mp hp with rfl | hp
    · intro hcount
      exact hone (Option.some.inj hcount) ⟨c, call, g', hc, hphase, hkey.symm⟩
    · exact h.fresh c call g' hc hphase p hp hkey hwindow
  · have hticket : ticket (⟨k, g, limit, some n⟩ : Pass K) = some (k, g, n) := rfl
    rw [State.pass, List.filterMap_cons_some hticket]
    refine List.nodup_cons.mpr ⟨fun hmem => ?_, h.once⟩
    obtain ⟨p, hp, hpt⟩ := List.mem_filterMap.mp hmem
    obtain ⟨m, hm, heq⟩ := Option.map_eq_some_iff.mp hpt
    cases heq
    exact hnew.unissued p hp rfl rfl hm

/-! ## The commands -/

/-- The counter is there with this entry. -/
theorem has_iff : s.has k = true ↔ ∃ en, s.store k = some en ∧ en.live s.clock = true := by
  rw [State.has, Option.isSome_iff_exists]
  constructor
  · rintro ⟨v, hv⟩
    obtain ⟨en, hen, hlive, -⟩ := Expiring.get_eq_some.mp hv
    exact ⟨en, hen, hlive⟩
  · rintro ⟨en, hen, hlive⟩
    exact ⟨en.value, Expiring.get_eq_some.mpr ⟨en, hen, hlive, rfl⟩⟩

theorem filter_of_not_has (h : s.has k = false) : (s.store k).filter (Entry.live s.clock) = none := by
  have hno : ¬ ∃ en, s.store k = some en ∧ en.live s.clock = true :=
    fun hex => Bool.eq_false_iff.mp h (has_iff.mpr hex)
  rw [Option.filter_eq_none_iff]
  exact fun en hen hlive => hno ⟨en, hen, hlive⟩

theorem live_of_no_expiry {en : Entry Nat Int} {now : Int} (h : en.expires = none) :
    en.live now = true := by
  simp [Entry.live, h]

/-- A counter whose EXPIRE is to come is there. -/
theorem Inv.has_of_settling (h : Inv s) (hk : Settling s.calls k) : s.has k = true := by
  obtain ⟨c, call, g, hc, hphase, rfl⟩ := hk
  obtain ⟨-, en, hen, hexpires⟩ := h.pending c call g hc hphase
  exact has_iff.mpr ⟨en, hen, live_of_no_expiry hexpires⟩

variable [DecidableEq K]

theorem incr_create (h : s.has k = false) : s.incr k =
    (1, { s with store := Expiring.put s.store k 1 none,
                 windows := Function.update s.windows k (s.windows k + 1) }) := by
  rw [State.incr, Expiring.incr_new (filter_of_not_has h), if_neg (by simp [h])]

theorem incr_again {en : Entry Nat Int} (hen : s.store k = some en) (hlive : en.live s.clock = true) :
    s.incr k =
      (en.value + 1, { s with store := Expiring.put s.store k (en.value + 1) en.expires }) := by
  rw [State.incr, Expiring.incr_live hen hlive, if_pos (has_iff.mpr ⟨en, hen, hlive⟩)]

theorem put_self (store : Store K Nat Int) (k : K) (v : Nat) (e : Option Int) :
    Expiring.put store k v e k = some ⟨v, e⟩ := Function.update_self ..

theorem put_ne (store : Store K Nat Int) {k k' : K} (h : k' ≠ k) (v : Nat) (e : Option Int) :
    Expiring.put store k v e k' = store k' := Function.update_of_ne h ..

/-- What an INCR leaves under the invariant: one more, in a window that is new where the key was not
there. -/
structure Counted (s : State K ω) (k : K) : Prop where
  inv : Inv (s.incr k).2
  new : New (s.incr k).2 k ((s.incr k).2.windows k) (s.incr k).1
  one_iff : (s.incr k).1 = 1 ↔ s.has k = false

theorem Inv.incr_create (h : Inv s) (hk : s.has k = false) : Counted s k := by
  have hfree (c : Nat) (call : Call K ω) (g : Nat) (hc : s.calls c = some call)
      (hphase : call.phase = .expiring g) : call.check.key ≠ k := by
    intro hkey
    rw [h.has_of_settling ⟨c, call, g, hc, hphase, hkey⟩] at hk
    cases hk
  have hwindow (p : Pass K) (hp : p ∈ s.passes) (n : Nat) (hn : p.count = some n) :
      p.key = k → p.window ≠ s.windows k + 1 := by
    rintro rfl heq
    have hle := (h.issued p hp n hn).2.2.1
    omega
  constructor
  · rw [FixedWindow.incr_create hk]
    constructor
    · intro k' en hen
      by_cases hkey : k' = k
      · subst hkey
        cases (put_self ..).symm.trans hen
        exact Nat.le_refl 1
      · exact h.positive k' en ((put_ne _ hkey ..).symm.trans hen)
    · intro c call g hc hphase
      have hkey := hfree c call g hc hphase
      obtain ⟨hg, en, hen, hexpires⟩ := h.pending c call g hc hphase
      exact ⟨hg.trans (Function.update_of_ne hkey ..).symm, en, (put_ne _ hkey ..).trans hen, hexpires⟩
    · exact h.one
    · intro p hp n hn
      obtain ⟨hone, hlimit, hle, hentry⟩ := h.issued p hp n hn
      refine ⟨hone, hlimit, ?_⟩
      by_cases hkey : p.key = k
      · simp only [hkey, Function.update_self]
        rw [hkey] at hle
        exact ⟨by omega, fun heq => absurd heq (hwindow p hp n hn hkey)⟩
      · simp only [Function.update_of_ne hkey, put_ne _ hkey]
        exact ⟨hle, hentry⟩
    · exact h.fresh
    · exact h.once
  · rw [FixedWindow.incr_create hk]
    refine ⟨Nat.le_refl 1, rfl, ⟨_, put_self .., Nat.le_refl 1⟩, fun p hp hkey hg hcount => ?_⟩
    exact hwindow p hp 1 hcount hkey (hg.trans (Function.update_self ..))
  · rw [FixedWindow.incr_create hk]
    exact iff_of_true rfl hk

theorem Inv.incr_again (h : Inv s) (hk : s.has k = true) : Counted s k := by
  obtain ⟨en, hen, hlive⟩ := has_iff.mp hk
  have hpos := h.positive k en hen
  constructor
  · rw [FixedWindow.incr_again hen hlive]
    constructor
    · intro k' en' hen'
      by_cases hkey : k' = k
      · subst hkey
        cases (put_self ..).symm.trans hen'
        exact Nat.le_add_left 1 _
      · exact h.positive k' en' ((put_ne _ hkey ..).symm.trans hen')
    · intro c call g hc hphase
      obtain ⟨hg, en', hen', hexpires⟩ := h.pending c call g hc hphase
      refine ⟨hg, ?_⟩
      by_cases hkey : call.check.key = k
      · rw [hkey] at hen' ⊢
        cases hen.symm.trans hen'
        exact ⟨_, put_self .., hexpires⟩
      · exact ⟨en', (put_ne _ hkey ..).trans hen', hexpires⟩
    · exact h.one
    · intro p hp n hn
      obtain ⟨hone, hlimit, hle, hentry⟩ := h.issued p hp n hn
      refine ⟨hone, hlimit, hle, fun hg => ?_⟩
      obtain ⟨en', hen', hn'⟩ := hentry hg
      by_cases hkey : p.key = k
      · rw [hkey] at hen' ⊢
        cases hen.symm.trans hen'
        exact ⟨_, put_self .., Nat.le_succ_of_le hn'⟩
      · exact ⟨en', (put_ne _ hkey ..).trans hen', hn'⟩
    · exact h.fresh
    · exact h.once
  · rw [FixedWindow.incr_again hen hlive]
    refine ⟨Nat.le_add_left 1 _, rfl, ⟨_, put_self .., Nat.le_refl _⟩, fun p hp hkey hg hcount => ?_⟩
    obtain ⟨-, -, -, hentry⟩ := h.issued p hp _ hcount
    subst hkey
    obtain ⟨en', hen', hle⟩ := hentry hg
    cases hen.symm.trans hen'
    exact Nat.not_succ_le_self _ hle
  · rw [FixedWindow.incr_again hen hlive]
    refine iff_of_false (fun heq => ?_) (by simp [hk])
    have hsucc : en.value + 1 = 1 := heq
    omega

theorem Inv.incr (h : Inv s) (k : K) : Counted s k := by
  cases hk : s.has k with
  | false => exact h.incr_create hk
  | true => exact h.incr_again hk

/-- An EXPIRE that no other call is about to send. -/
theorem Inv.expire (h : Inv s) (hk : ¬ Settling s.calls k) (window : Nat) : Inv (s.expire k window) := by
  have hentry (k' : K) (en : Entry Nat Int) (hen : s.store k' = some en) :
      ∃ en', (s.expire k window).store k' = some en' ∧ en'.value = en.value ∧
        (k' ≠ k → en' = en) := by
    unfold State.expire Expiring.expire
    cases hfilter : (s.store k).filter (Entry.live s.clock) with
    | none => exact ⟨en, hen, rfl, fun _ => rfl⟩
    | some en₀ =>
      by_cases hkey : k' = k
      · subst hkey
        obtain ⟨h₀, -⟩ := Option.filter_eq_some_iff.mp hfilter
        cases hen.symm.trans h₀
        exact ⟨_, put_self .., rfl, fun hne => absurd rfl hne⟩
      · exact ⟨en, (put_ne _ hkey ..).trans hen, rfl, fun _ => rfl⟩
  constructor
  · intro k' en hen
    unfold State.expire Expiring.expire at hen
    cases hfilter : (s.store k).filter (Entry.live s.clock) with
    | none =>
      rw [hfilter] at hen
      exact h.positive k' en hen
    | some en₀ =>
      rw [hfilter] at hen
      obtain ⟨h₀, -⟩ := Option.filter_eq_some_iff.mp hfilter
      by_cases hkey : k' = k
      · subst hkey
        cases (put_self ..).symm.trans hen
        exact h.positive k' en₀ h₀
      · exact h.positive k' en ((put_ne _ hkey ..).symm.trans hen)
  · intro c call g hc hphase
    obtain ⟨hg, en, hen, hexpires⟩ := h.pending c call g hc hphase
    obtain ⟨en', hen', -, hsame⟩ := hentry _ en hen
    have hkey : call.check.key ≠ k := fun hkey => hk ⟨c, call, g, hc, hphase, hkey⟩
    exact ⟨hg, en', hen', hsame hkey ▸ hexpires⟩
  · exact h.one
  · intro p hp n hn
    obtain ⟨hone, hlimit, hle, hold⟩ := h.issued p hp n hn
    refine ⟨hone, hlimit, hle, fun hg => ?_⟩
    obtain ⟨en, hen, hn'⟩ := hold hg
    obtain ⟨en', hen', hvalue, -⟩ := hentry _ en hen
    exact ⟨en', hen', hvalue.symm ▸ hn'⟩
  · exact h.fresh
  · exact h.once

/-! ## Steps -/

omit [DecidableEq K] in
theorem Inv.decide (h : Inv s) (hnew : New s call.check.key g n)
    (hone : n = 1 → ¬ Settling s.calls call.check.key) : Inv (s.decide c call g n) := by
  unfold State.decide
  split
  · exact h.leaves (leaves_answer _) rfl
  · rename_i hlimit
    refine (h.pass hnew (Nat.le_of_not_lt hlimit) hone).leaves (leaves_proceed _ c call) ?_
    unfold State.proceed
    split <;> rfl

variable [DecidableEq ω]

omit [DecidableEq K] in
theorem Inv.raise (h : Inv s) : Inv (s.raise c call) := by
  refine (h.leaves (leaves_answer (c := c) call.limiter.failed) rfl).unchecked fun p hp => ?_
  unfold FixedWindow.unchecked at hp
  split at hp
  · obtain ⟨check, -, rfl⟩ := List.mem_map.mp hp
    rfl
  · cases hp

omit [DecidableEq ω] in
/-- A call whose INCR read 1 goes on to its EXPIRE. -/
theorem Inv.enterExpiring (h : Inv s) (hcall : ∀ call', s.calls c = some call' → call'.phase = .counting)
    (hk : s.has call.check.key = false) :
    Inv ((s.incr call.check.key).2.enter c
      { call with phase := .expiring ((s.incr call.check.key).2.windows call.check.key) }) := by
  have hcounted := h.incr call.check.key
  have hcalls : (s.incr call.check.key).2.calls = s.calls := rfl
  have hone := hcounted.one_iff.mpr hk
  have hplace {c' : Nat} {call' : Call K ω} {g : Nat} {v : Call K ω}
      (hc : Function.update s.calls c (some v) c' = some call') (hphase : call'.phase = .expiring g) :
      c' = c ∧ call' = v ∨ c' ≠ c ∧ s.calls c' = some call' := by
    by_cases heq : c' = c
    · subst heq
      rw [Function.update_self] at hc
      exact .inl ⟨rfl, (Option.some.inj hc).symm⟩
    · rw [Function.update_of_ne heq] at hc
      exact .inr ⟨heq, hc⟩
  have hother (c' : Nat) (call' : Call K ω) (g : Nat) (hc : s.calls c' = some call')
      (hphase : call'.phase = .expiring g) : call'.check.key ≠ call.check.key := by
    intro hkey
    rw [h.has_of_settling ⟨c', call', g, hc, hphase, hkey⟩] at hk
    cases hk
  constructor
  · exact hcounted.inv.positive
  · intro c' call' g hc hphase
    rcases hplace hc hphase with ⟨rfl, rfl⟩ | ⟨-, hold⟩
    · cases hphase
      refine ⟨rfl, ⟨1, none⟩, ?_, rfl⟩
      rw [FixedWindow.incr_create hk]
      exact put_self ..
    · exact hcounted.inv.pending c' call' g hold hphase
  · intro c₁ call₁ g₁ c₂ call₂ g₂ h₁ hphase₁ h₂ hphase₂ hkey
    rcases hplace h₁ hphase₁ with ⟨rfl, rfl⟩ | ⟨-, hold₁⟩ <;>
      rcases hplace h₂ hphase₂ with ⟨rfl, rfl⟩ | ⟨-, hold₂⟩
    · rfl
    · exact absurd hkey.symm (hother c₂ call₂ g₂ hold₂ hphase₂)
    · exact absurd hkey (hother c₁ call₁ g₁ hold₁ hphase₁)
    · exact h.one c₁ call₁ g₁ c₂ call₂ g₂ hold₁ hphase₁ hold₂ hphase₂ hkey
  · exact hcounted.inv.issued
  · intro c' call' g hc hphase p hp hkey hg
    rcases hplace hc hphase with ⟨rfl, rfl⟩ | ⟨-, hold⟩
    · cases hphase
      have hun := hcounted.new.unissued p hp hkey hg
      rwa [hone] at hun
    · exact hcounted.inv.fresh c' call' g hold hphase p hp hkey hg
  · exact hcounted.inv.once

theorem Inv.count (h : Inv s) (hc : s.calls c = some call) (hphase : call.phase = .counting)
    (reply : Reply) : Inv (s.count c call reply) := by
  have hcall (call' : Call K ω) (hc' : s.calls c = some call') : call'.phase = .counting := by
    cases hc.symm.trans hc'
    exact hphase
  have hcounted := h.incr call.check.key
  have hexecuted (executed : Bool) :
      Inv (if executed then (s.incr call.check.key).2 else s) := by
    split
    · exact hcounted.inv
    · exact h
  cases reply with
  | raised executed => exact (hexecuted executed).raise
  | died executed => exact (hexecuted executed).leaves leaves_leave rfl
  | answered =>
    change Inv (if (s.incr call.check.key).1 = 1 then _ else _)
    by_cases hone : (s.incr call.check.key).1 = 1
    · rw [if_pos hone]
      exact h.enterExpiring hcall (hcounted.one_iff.mp hone)
    · rw [if_neg hone]
      exact hcounted.inv.decide hcounted.new fun heq => absurd heq hone

section Forgets

omit [DecidableEq K]

omit [DecidableEq ω] in
/-- The end of a call forgets what its place held. -/
theorem leave_decide : (s.leave c).decide c call g n = s.decide c call g n := by
  unfold State.decide
  split
  · simp [State.answer, State.leave]
  · unfold State.proceed State.pass
    split <;> simp [State.answer, State.leave, State.enter]

theorem leave_raise : (s.leave c).raise c call = s.raise c call := by
  simp [State.raise, State.answer, State.leave, FixedWindow.unchecked]

end Forgets

omit [DecidableEq K] [DecidableEq ω] in
/-- No other call is about to send the EXPIRE that a call sends. -/
theorem Inv.not_settling_leave (h : Inv s) (hc : s.calls c = some call)
    (hphase : call.phase = .expiring g) : ¬ Settling (s.leave c).calls call.check.key := by
  rintro ⟨c', call', g', hc', hphase', hkey⟩
  obtain ⟨hne, hold⟩ := (leaves_leave (c := c) (s := s)).expiring hc' hphase'
  exact hne (h.one c' call' g' c call g hold hphase' hc hphase hkey)

omit [DecidableEq ω] in
/-- What an EXPIRE makes of the entry of a call that is about to send it. -/
theorem Inv.expire_entry (h : Inv s) (hc : s.calls c = some call) (hphase : call.phase = .expiring g)
    (window : Nat) : ∃ en, s.store call.check.key = some en ∧ en.expires = none ∧
      s.expire call.check.key window = { s with
        store := Expiring.put s.store call.check.key en.value (some (s.clock + window)) } := by
  obtain ⟨-, en, hen, hexpires⟩ := h.pending c call g hc hphase
  refine ⟨en, hen, hexpires, ?_⟩
  rw [State.expire, Expiring.expire_live hen (live_of_no_expiry hexpires)]

theorem Inv.limitLife (h : Inv s) (hc : s.calls c = some call) (hphase : call.phase = .expiring g)
    (reply : Reply) : Inv (s.limitLife c call g reply) := by
  have hleft : Inv (s.leave c) := h.leaves leaves_leave rfl
  have hno := h.not_settling_leave hc hphase
  have hexpired := hleft.expire hno call.check.window
  obtain ⟨hg, -⟩ := h.pending c call g hc hphase
  obtain ⟨en, hen, -, hset⟩ := h.expire_entry hc hphase call.check.window
  cases reply with
  | raised executed =>
    cases executed with
    | true =>
      change Inv ((s.expire call.check.key call.check.window).raise c call)
      rw [← leave_raise]
      exact Inv.raise hexpired
    | false => exact h.raise
  | died executed =>
    cases executed with
    | true => exact hexpired
    | false => exact hleft
  | answered =>
    change Inv ((s.expire call.check.key call.check.window).decide c call g 1)
    rw [← leave_decide]
    refine Inv.decide hexpired ⟨Nat.le_refl 1, hg, ?_, h.fresh c call g hc hphase⟩ fun _ => hno
    have hpos := h.positive _ en hen
    refine ⟨⟨en.value, some (s.clock + call.check.window)⟩, ?_, hpos⟩
    change (s.expire call.check.key call.check.window).store call.check.key = _
    rw [hset]
    exact put_self ..

variable {limiter : ρ → Limiter K ω} {e : Event ρ}

/-- What a step does. -/
theorem step_cases (hs : FixedWindow.step limiter s e = some s') :
    (∃ c request, e = .start c request ∧ s.calls c = none ∧ s' = s.begin c (limiter request)) ∨
    (∃ time : Nat, e = .wait time ∧ s' = { s with clock := s.clock + time }) ∨
    (∃ c reply call, e = .redis c reply ∧ s.calls c = some call ∧ call.phase = .counting ∧
      s' = s.count c call reply) ∨
    ∃ c reply call g, e = .redis c reply ∧ s.calls c = some call ∧ call.phase = .expiring g ∧
      s' = s.limitLife c call g reply := by
  cases e with
  | start c request =>
    by_cases hc : (s.calls c).isNone = true
    · rw [step, if_pos hc] at hs
      exact .inl ⟨c, request, rfl, Option.isNone_iff_eq_none.mp hc, (Option.some.inj hs).symm⟩
    · rw [step, if_neg hc] at hs
      cases hs
  | wait time => exact .inr (.inl ⟨time, rfl, (Option.some.inj hs).symm⟩)
  | redis c reply =>
    obtain ⟨call, hc, hs⟩ := Option.map_eq_some_iff.mp hs
    cases hphase : call.phase with
    | counting =>
      rw [hphase] at hs
      exact .inr (.inr (.inl ⟨c, reply, call, rfl, hc, hphase, hs.symm⟩))
    | expiring g =>
      rw [hphase] at hs
      exact .inr (.inr (.inr ⟨c, reply, call, g, rfl, hc, hphase, hs.symm⟩))

theorem Inv.step (h : Inv s) (hs : FixedWindow.step limiter s e = some s') : Inv s' := by
  obtain ⟨c, request, -, -, rfl⟩ | ⟨time, -, rfl⟩ | ⟨c, reply, call, -, hc, hphase, rfl⟩ |
    ⟨c, reply, call, g, -, hc, hphase, rfl⟩ := step_cases hs
  · refine h.leaves (leaves_begin (c := c) (limiter request)) ?_
    unfold State.begin
    split <;> rfl
  · exact ⟨h.positive, h.pending, h.one, h.issued, h.fresh, h.once⟩
  · exact h.count hc hphase reply
  · exact h.limitLife hc hphase reply

theorem Inv.run {as : List (Event ρ)} (h : Inv s) (hr : Machine.run (FixedWindow.step limiter) s as = some s') :
    Inv s' :=
  Machine.invariant (C := fun _ _ => true) h (fun _ _ _ hi _ hs => hi.step hs) hr
    (Machine.along_true s as)

/-! ## Times to live -/

/-- Every counter that is there has a time to live, unless a call is about to send its EXPIRE. -/
def HasTtl (s : State K ω) : Prop :=
  ∀ k en, s.store k = some en → en.live s.clock = true → ¬ Settling s.calls k → en.expires ≠ none

/-- No counter is created without its EXPIRE: the INCR that creates it is answered, and the EXPIRE is
executed. -/
def expireSent (s : State K ω) : Event ρ → Bool
  | .redis c reply =>
      match s.calls c with
      | none => true
      | some call =>
          match call.phase with
          | .counting => reply = .answered || !reply.executed || s.has call.check.key
          | .expiring _ => reply.executed
  | _ => true

section Ttl

omit [DecidableEq K] [DecidableEq ω] in
theorem hasTtl_leaves (hl : Leaves c s s')
    (hc : ∀ call, s.calls c = some call → call.phase = .counting) : HasTtl s' ↔ HasTtl s := by
  simp only [HasTtl, hl.clock, hl.store, hl.settling hc]

omit [DecidableEq ω] in
theorem hasTtl_incr_again (hk : s.has k = true) : HasTtl (s.incr k).2 ↔ HasTtl s := by
  obtain ⟨en, hen, hlive⟩ := has_iff.mp hk
  rw [incr_again hen hlive]
  constructor
  · intro h k' en' hen' hlive' hsettling
    by_cases hkey : k' = k
    · subst hkey
      cases hen.symm.trans hen'
      exact h k' ⟨en.value + 1, en.expires⟩ (put_self ..) hlive hsettling
    · exact h k' en' ((put_ne _ hkey ..).trans hen') hlive' hsettling
  · intro h k' en' hen' hlive' hsettling
    by_cases hkey : k' = k
    · subst hkey
      cases (put_self ..).symm.trans hen'
      exact h k' en hen hlive hsettling
    · exact h k' en' ((put_ne _ hkey ..).symm.trans hen') hlive' hsettling

omit [DecidableEq ω] in
/-- A counter that is created and then left. -/
theorem not_hasTtl_incr (h : Inv s) (hk : s.has k = false) : ¬ HasTtl (s.incr k).2 := by
  intro httl
  have hno : ¬ Settling s.calls k := by
    intro hsettling
    rw [h.has_of_settling hsettling] at hk
    cases hk
  rw [incr_create hk] at httl
  exact httl k ⟨1, none⟩ (put_self ..) rfl hno rfl

omit [DecidableEq ω] in
/-- A counter that is created and whose EXPIRE is next. -/
theorem hasTtl_enterExpiring (httl : HasTtl s)
    (hcall : ∀ call', s.calls c = some call' → call'.phase = .counting)
    (hk : s.has call.check.key = false) :
    HasTtl ((s.incr call.check.key).2.enter c { call with phase := .expiring g }) := by
  intro k' en hen hlive hsettling
  have hkey : k' ≠ call.check.key := by
    rintro rfl
    exact hsettling ⟨c, _, g, Function.update_self .., rfl, rfl⟩
  rw [incr_create hk] at hen
  refine httl k' en ((put_ne _ hkey ..).symm.trans hen) hlive ?_
  rintro ⟨c', call', g', hc', hphase', hkey'⟩
  have hne : c' ≠ c := by
    rintro rfl
    rw [hcall call' hc'] at hphase'
    cases hphase'
  exact hsettling ⟨c', call', g', (Function.update_of_ne hne ..).trans hc', hphase', hkey'⟩

omit [DecidableEq K] [DecidableEq ω] in
/-- Without the call that is about to send its EXPIRE. -/
theorem settling_leave (hc : s.calls c = some call) (hk : k ≠ call.check.key) :
    Settling (s.leave c).calls k ↔ Settling s.calls k := by
  constructor
  · rintro ⟨c', call', g', hc', hphase', hkey'⟩
    exact ⟨c', call', g', ((leaves_leave (c := c) (s := s)).expiring hc' hphase').2, hphase', hkey'⟩
  · rintro ⟨c', call', g', hc', hphase', hkey'⟩
    have hne : c' ≠ c := by
      rintro rfl
      cases hc.symm.trans hc'
      exact hk hkey'.symm
    exact ⟨c', call', g', (Function.update_of_ne hne ..).trans hc', hphase', hkey'⟩

omit [DecidableEq ω] in
theorem hasTtl_expire (h : Inv s) (httl : HasTtl s) (hc : s.calls c = some call)
    (hphase : call.phase = .expiring g) (window : Nat) :
    HasTtl ((s.leave c).expire call.check.key window) := by
  obtain ⟨en, -, -, hset⟩ := h.expire_entry hc hphase window
  intro k' en' hen' hlive hsettling
  change (s.expire call.check.key window).store k' = some en' at hen'
  rw [hset] at hen'
  by_cases hkey : k' = call.check.key
  · subst hkey
    cases (put_self ..).symm.trans hen'
    nofun
  · refine httl k' en' ((put_ne _ hkey ..).symm.trans hen') hlive fun hold => hsettling ?_
    exact (settling_leave hc hkey).mpr hold

omit [DecidableEq K] [DecidableEq ω] in
/-- A counter whose EXPIRE will not come. -/
theorem not_hasTtl_leave (h : Inv s) (hc : s.calls c = some call) (hphase : call.phase = .expiring g) :
    ¬ HasTtl (s.leave c) := by
  intro httl
  obtain ⟨-, en, hen, hexpires⟩ := h.pending c call g hc hphase
  exact httl call.check.key en hen (live_of_no_expiry hexpires) (h.not_settling_leave hc hphase) hexpires

theorem hasTtl_count (h : Inv s) (httl : HasTtl s) (hc : s.calls c = some call)
    (hphase : call.phase = .counting) (reply : Reply) : HasTtl (s.count c call reply) ↔
      (reply = .answered ∨ reply.executed = false ∨ s.has call.check.key = true) := by
  have hcall (call' : Call K ω) (hc' : s.calls c = some call') : call'.phase = .counting := by
    cases hc.symm.trans hc'
    exact hphase
  have hcounted := h.incr call.check.key
  have hlost {s₁ : State K ω} (hl : Leaves c (s.incr call.check.key).2 s₁) :
      HasTtl s₁ ↔ s.has call.check.key = true := by
    rw [hasTtl_leaves hl hcall]
    cases hk : s.has call.check.key with
    | true => exact iff_of_true ((hasTtl_incr_again hk).mpr httl) rfl
    | false => exact iff_of_false (not_hasTtl_incr h hk) Bool.false_ne_true
  cases reply with
  | answered =>
    refine iff_of_true ?_ (.inl rfl)
    change HasTtl (if (s.incr call.check.key).1 = 1 then _ else _)
    by_cases hone : (s.incr call.check.key).1 = 1
    · rw [if_pos hone]
      exact hasTtl_enterExpiring httl hcall (hcounted.one_iff.mp hone)
    · rw [if_neg hone]
      refine (hlost (leaves_decide ..)).mpr ?_
      exact Bool.not_eq_false _ ▸ mt hcounted.one_iff.mpr hone
  | raised executed =>
    cases executed with
    | true =>
      change HasTtl ((s.incr call.check.key).2.raise c call) ↔ _
      simpa [Reply.executed] using hlost leaves_raise
    | false => exact iff_of_true ((hasTtl_leaves leaves_raise hcall).mpr httl) (.inr (.inl rfl))
  | died executed =>
    cases executed with
    | true =>
      change HasTtl ((s.incr call.check.key).2.leave c) ↔ _
      simpa [Reply.executed] using hlost leaves_leave
    | false => exact iff_of_true ((hasTtl_leaves leaves_leave hcall).mpr httl) (.inr (.inl rfl))

theorem hasTtl_limitLife (h : Inv s) (httl : HasTtl s) (hc : s.calls c = some call)
    (hphase : call.phase = .expiring g) (reply : Reply) :
    HasTtl (s.limitLife c call g reply) ↔ reply.executed = true := by
  have hgone (call' : Call K ω) (hc' : (s.leave c).calls c = some call') :
      call'.phase = .counting := by
    cases (Function.update_self ..).symm.trans hc'
  have hsent {s₁ : State K ω}
      (hl : Leaves c ((s.leave c).expire call.check.key call.check.window) s₁) : HasTtl s₁ :=
    (hasTtl_leaves hl hgone).mpr (hasTtl_expire h httl hc hphase _)
  have hlost {s₁ : State K ω} (hl : Leaves c (s.leave c) s₁) : ¬ HasTtl s₁ :=
    mt (hasTtl_leaves hl hgone).mp (not_hasTtl_leave h hc hphase)
  cases reply with
  | answered =>
    change HasTtl ((s.expire call.check.key call.check.window).decide c call g 1) ↔ _
    rw [← leave_decide]
    exact iff_of_true (hsent (leaves_decide ..)) rfl
  | raised executed =>
    cases executed with
    | true =>
      change HasTtl ((s.expire call.check.key call.check.window).raise c call) ↔ _
      rw [← leave_raise]
      exact iff_of_true (hsent leaves_raise) rfl
    | false =>
      change HasTtl (s.raise c call) ↔ _
      rw [← leave_raise]
      exact iff_of_false (hlost leaves_raise) Bool.false_ne_true
  | died executed =>
    cases executed with
    | true =>
      change HasTtl ((s.expire call.check.key call.check.window).leave c) ↔ _
      refine iff_of_true ?_ rfl
      exact hasTtl_expire h httl hc hphase _
    | false => exact iff_of_false (not_hasTtl_leave h hc hphase) Bool.false_ne_true

/-- A step keeps the times to live exactly when no counter loses its EXPIRE. -/
theorem hasTtl_step (h : Inv s) (httl : HasTtl s) (hs : FixedWindow.step limiter s e = some s') :
    HasTtl s' ↔ expireSent s e = true := by
  obtain ⟨c, request, rfl, hc, rfl⟩ | ⟨time, rfl, rfl⟩ | ⟨c, reply, call, rfl, hc, hphase, rfl⟩ |
    ⟨c, reply, call, g, rfl, hc, hphase, rfl⟩ := step_cases hs
  · have hcall (call : Call K ω) (hc' : s.calls c = some call) : call.phase = .counting := by
      cases hc.symm.trans hc'
    exact iff_of_true ((hasTtl_leaves (leaves_begin (limiter request)) hcall).mpr httl) rfl
  · refine iff_of_true (fun k en hen hlive hsettling => httl k en hen ?_ hsettling) rfl
    simp only [Entry.live, Option.all_eq_true, decide_eq_true_eq] at hlive ⊢
    exact fun t ht => Int.lt_of_le_of_lt (Int.le_add_of_nonneg_right (Int.natCast_nonneg time)) (hlive t ht)
  · rw [hasTtl_count h httl hc hphase]
    simp [expireSent, hc, hphase, or_assoc]
  · rw [hasTtl_limitLife h httl hc hphase]
    simp [expireSent, hc, hphase]

end Ttl

/-- In a run from an empty store every counter has a time to live exactly along such steps. -/
theorem hasTtl_iff {now : Int} {as : List (Event ρ)}
    (hr : Machine.run (step limiter) { clock := now } as = some s) :
    (∀ bs s₁, bs <+: as → Machine.run (step limiter) { clock := now } bs = some s₁ → HasTtl s₁) ↔
      Machine.along (step limiter) expireSent { clock := now } as = true :=
  Machine.along_iff (inv_start now) nofun (fun _ _ _ h hs => h.step hs)
    (fun _ _ _ h httl hs => hasTtl_step h httl hs) hr

/-! ## Limits -/

/-- The passes of a window under a limit. -/
def within (s : State K ω) (k : K) (g limit : Nat) : List (Pass K) :=
  s.passes.filter fun p => p.key = k && p.window = g && p.limit ≤ limit

omit [DecidableEq ω] in
/-- Those that a count decided are no more than the limit. -/
theorem Inv.limited (h : Inv s) (k : K) (g limit : Nat) :
    ((within s k g limit).filter fun p => p.count.isSome).length ≤ limit := by
  let ps := (within s k g limit).filter fun p => p.count.isSome
  have hps (p : Pass K) (hp : p ∈ ps) : p ∈ s.passes ∧ p.key = k ∧ p.window = g ∧ p.limit ≤ limit ∧
      p.count.isSome = true := by
    simp only [ps, within, List.mem_filter, Bool.and_eq_true, decide_eq_true_eq] at hp
    exact ⟨hp.1.1, hp.1.2.1.1, hp.1.2.1.2, hp.1.2.2, hp.2⟩
  have hpairs : ps.Pairwise fun p q => ∀ x ∈ ticket p, ∀ y ∈ ticket q, x ≠ y :=
    (List.pairwise_filterMap.mp h.once).sublist (List.filter_sublist.trans List.filter_sublist)
  have hcounts : (ps.map fun p => p.count.getD 0).Nodup := by
    refine List.pairwise_map.mpr (hpairs.imp_of_mem fun {p q} hp hq hne heq => ?_)
    obtain ⟨-, hkey, hwindow, -, hsome⟩ := hps p hp
    obtain ⟨-, hkey', hwindow', -, hsome'⟩ := hps q hq
    obtain ⟨n, hn⟩ := Option.isSome_iff_exists.mp hsome
    obtain ⟨m, hm⟩ := Option.isSome_iff_exists.mp hsome'
    have hnm : n = m := by simpa [hn, hm] using heq
    refine hne (k, g, n) ?_ (k, g, m) ?_ (by rw [hnm])
    · simp [ticket, hn, hkey, hwindow]
    · simp [ticket, hm, hkey', hwindow']
  have hsub : ps.map (fun p => p.count.getD 0) ⊆ List.range' 1 limit := by
    intro n hn
    obtain ⟨p, hp, rfl⟩ := List.mem_map.mp hn
    obtain ⟨hmem, -, -, hle, hsome⟩ := hps p hp
    obtain ⟨m, hm⟩ := Option.isSome_iff_exists.mp hsome
    obtain ⟨hone, hlimit, -⟩ := h.issued p hmem m hm
    simp only [hm, Option.getD_some, List.mem_range'_1]
    omega
  have hlength := (List.subperm_of_subset hcounts hsub).length_le
  rw [List.length_map, List.length_range'] at hlength
  exact hlength

/-- No command raises in a call that goes on without its count then. -/
def checked (s : State K ω) : Event ρ → Bool
  | .redis c (.raised _) => (s.calls c).all fun call => decide (call.limiter.failed ≠ call.limiter.passed)
  | _ => true

def AllCounted (s : State K ω) : Prop := ∀ p ∈ s.passes, p.count.isSome = true

section Counted

omit [DecidableEq K] [DecidableEq ω]

theorem allCounted_decide (h : AllCounted s) : AllCounted (s.decide c call g n) := by
  unfold State.decide
  split
  · exact h
  · have hpass : AllCounted (s.pass ⟨call.check.key, g, call.check.limit, some n⟩) := by
      intro p hp
      rcases List.mem_cons.mp hp with rfl | hp
      · rfl
      · exact h p hp
    unfold State.proceed
    split <;> exact hpass

theorem allCounted_raise [DecidableEq ω] (h : AllCounted s)
    (hne : call.limiter.failed ≠ call.limiter.passed) : AllCounted (s.raise c call) := by
  intro p hp
  simp only [State.raise, FixedWindow.unchecked, if_neg hne, List.nil_append] at hp
  exact h p hp

end Counted

theorem allCounted_step (h : AllCounted s) (hcheck : checked s e = true)
    (hs : FixedWindow.step limiter s e = some s') : AllCounted s' := by
  have hraise {c : Nat} {call : Call K ω} {executed : Bool} (hc : s.calls c = some call)
      (he : e = .redis c (.raised executed)) : call.limiter.failed ≠ call.limiter.passed := by
    subst he
    simpa [checked, hc] using hcheck
  obtain ⟨c, request, -, -, rfl⟩ | ⟨time, -, rfl⟩ | ⟨c, reply, call, he, hc, hphase, rfl⟩ |
    ⟨c, reply, call, g, he, hc, hphase, rfl⟩ := step_cases hs
  · unfold State.begin
    split <;> exact h
  · exact h
  · cases reply with
    | answered =>
      change AllCounted (if (s.incr call.check.key).1 = 1 then _ else _)
      split
      · exact h
      · exact allCounted_decide h
    | raised executed =>
      cases executed with
      | true => exact allCounted_raise (s := (s.incr call.check.key).2) h (hraise hc he)
      | false => exact allCounted_raise h (hraise hc he)
    | died executed => cases executed <;> exact h
  · cases reply with
    | answered => exact allCounted_decide (s := s.expire call.check.key call.check.window) h
    | raised executed =>
      cases executed with
      | true =>
        exact allCounted_raise (s := s.expire call.check.key call.check.window) h (hraise hc he)
      | false => exact allCounted_raise h (hraise hc he)
    | died executed => cases executed <;> exact h

/-- Where no command raises in such a call, all that get past a check in a window are no more than the
limit. -/
theorem within_le {now : Int} {as : List (Event ρ)}
    (hr : Machine.run (step limiter) { clock := now } as = some s)
    (ha : Machine.along (step limiter) checked { clock := now } as = true) (k : K) (g limit : Nat) :
    (within s k g limit).length ≤ limit := by
  have hcounted : AllCounted s := Machine.invariant (I := AllCounted)
    (fun p hp => absurd hp List.not_mem_nil)
    (fun _ _ _ h hcheck hs => allCounted_step h hcheck hs) hr ha
  have hall : (within s k g limit).filter (fun p => p.count.isSome) = within s k g limit :=
    List.filter_eq_self.mpr fun p hp => hcounted p (List.mem_filter.mp hp).1
  rw [← hall]
  exact (Inv.run (inv_start now) hr).limited k g limit

/-! ## Keys that are left alone -/

/-- The server executes a command on the key. -/
def touches (k : K) (s : State K ω) : Event ρ → Bool
  | .redis c reply => reply.executed && (s.calls c).any fun call => call.check.key = k
  | _ => false

/-- What the call gives the key is at most this long. -/
def Short (k : K) (window : Nat) (call : Call K ω) : Prop :=
  ∀ check ∈ call.check :: call.rest, check.key = k → check.window ≤ window

structure Bounded (k : K) (window : Nat) (s : State K ω) : Prop where
  calls : ∀ c call, s.calls c = some call → Short k window call
  expires : ∀ en t, s.store k = some en → en.expires = some t → t ≤ s.clock + window

/-- A call that the event starts does so. -/
def Fits (limiter : ρ → Limiter K ω) (k : K) (window : Nat) : Event ρ → Prop
  | .start _ request => ∀ check ∈ (limiter request).checks, check.key = k → check.window ≤ window
  | _ => True

section Bounds

variable {window : Nat}

omit [DecidableEq K] [DecidableEq ω] in
theorem Bounded.place (h : Bounded k window s) {place : Option (Call K ω)}
    (hplace : ∀ call, place = some call → Short k window call) :
    Bounded k window { s with calls := Function.update s.calls c place } := by
  refine ⟨fun c' call hc => ?_, h.expires⟩
  have hplaced : Function.update s.calls c place c' = some call := hc
  by_cases heq : c' = c
  · rw [heq, Function.update_self] at hplaced
    exact hplace call hplaced
  · rw [Function.update_of_ne heq] at hplaced
    exact h.calls c' call hplaced

omit [DecidableEq K] [DecidableEq ω] in
theorem Bounded.leave (h : Bounded k window s) : Bounded k window (s.leave c) := h.place nofun

omit [DecidableEq K] [DecidableEq ω] in
theorem Bounded.decide (h : Bounded k window s) (hcall : Short k window call) :
    Bounded k window (s.decide c call g n) := by
  unfold State.decide
  split
  · exact ⟨h.leave.calls, h.expires⟩
  · have hpass : Bounded k window (s.pass ⟨call.check.key, g, call.check.limit, some n⟩) :=
      ⟨h.calls, h.expires⟩
    unfold State.proceed
    cases hrest : call.rest with
    | nil => exact ⟨hpass.leave.calls, hpass.expires⟩
    | cons check rest =>
      refine hpass.place fun call' heq => ?_
      cases heq
      intro check' hmem
      exact hcall check' (List.mem_cons_of_mem _ (hrest ▸ hmem))

omit [DecidableEq ω] in
theorem Bounded.incr (h : Bounded k window s) (k' : K) : Bounded k window (s.incr k').2 := by
  refine ⟨h.calls, ?_⟩
  cases hk : s.has k' with
  | false =>
    rw [incr_create hk]
    intro en t hen ht
    by_cases hkey : k = k'
    · subst hkey
      cases (put_self ..).symm.trans hen
      cases ht
    · exact h.expires en t ((put_ne _ hkey ..).symm.trans hen) ht
  | true =>
    obtain ⟨en', hen', hlive⟩ := has_iff.mp hk
    rw [incr_again hen' hlive]
    intro en t hen ht
    by_cases hkey : k = k'
    · subst hkey
      cases (put_self ..).symm.trans hen
      exact h.expires en' t hen' ht
    · exact h.expires en t ((put_ne _ hkey ..).symm.trans hen) ht

omit [DecidableEq ω] in
theorem Bounded.expire (h : Bounded k window s) {k' : K} {w : Nat} (hw : k' = k → w ≤ window) :
    Bounded k window (s.expire k' w) := by
  refine ⟨h.calls, fun en t hen ht => ?_⟩
  unfold State.expire Expiring.expire at hen
  cases hfilter : (s.store k').filter (Entry.live s.clock) with
  | none =>
    rw [hfilter] at hen
    exact h.expires en t hen ht
  | some en' =>
    rw [hfilter] at hen
    by_cases hkey : k = k'
    · subst hkey
      cases (put_self ..).symm.trans hen
      obtain rfl := Option.some.inj ht
      have hle := hw rfl
      change s.clock + w ≤ s.clock + window
      omega
    · exact h.expires en t ((put_ne _ hkey ..).symm.trans hen) ht

theorem Bounded.step (h : Bounded k window s) (hfits : Fits limiter k window e)
    (hs : FixedWindow.step limiter s e = some s') : Bounded k window s' := by
  obtain ⟨c, request, rfl, -, rfl⟩ | ⟨time, -, rfl⟩ | ⟨c, reply, call, -, hc, -, rfl⟩ |
    ⟨c, reply, call, g, -, hc, -, rfl⟩ := step_cases hs
  · unfold State.begin
    cases hchecks : (limiter request).checks with
    | nil => exact ⟨h.leave.calls, h.expires⟩
    | cons check rest =>
      refine h.place fun call heq => ?_
      cases heq
      intro check' hmem
      exact hfits check' (hchecks ▸ hmem)
  · refine ⟨h.calls, fun en t hen ht => ?_⟩
    have hle := h.expires en t hen ht
    change t ≤ s.clock + time + window
    omega
  · have hcall := h.calls c call hc
    have hincr := h.incr call.check.key
    cases reply with
    | answered =>
      change Bounded k window (if (s.incr call.check.key).1 = 1 then _ else _)
      split
      · refine hincr.place fun call' heq => ?_
        cases heq
        exact hcall
      · exact hincr.decide hcall
    | raised executed =>
      cases executed with
      | true => exact ⟨hincr.leave.calls, hincr.expires⟩
      | false => exact ⟨h.leave.calls, h.expires⟩
    | died executed =>
      cases executed with
      | true => exact hincr.leave
      | false => exact h.leave
  · have hcall := h.calls c call hc
    have hexpire : Bounded k window (s.expire call.check.key call.check.window) :=
      h.expire fun hkey => hcall call.check List.mem_cons_self hkey
    cases reply with
    | answered => exact hexpire.decide hcall
    | raised executed =>
      cases executed with
      | true => exact ⟨hexpire.leave.calls, hexpire.expires⟩
      | false => exact ⟨h.leave.calls, h.expires⟩
    | died executed =>
      cases executed with
      | true => exact hexpire.leave
      | false => exact h.leave

omit [DecidableEq K] [DecidableEq ω] in
theorem bounded_start (now : Int) : Bounded k window ({ clock := now } : State K ω) := ⟨nofun, nofun⟩

theorem Bounded.run {as : List (Event ρ)} (h : Bounded k window s)
    (hfits : ∀ e ∈ as, Fits limiter k window e)
    (hr : Machine.run (FixedWindow.step limiter) s as = some s') : Bounded k window s' := by
  induction as generalizing s with
  | nil =>
    cases hr
    exact h
  | cons e as ih =>
    obtain ⟨s₁, hs, hr⟩ := Machine.run_cons.mp hr
    exact ih (h.step (hfits e List.mem_cons_self) hs)
      (fun e' he' => hfits e' (List.mem_cons_of_mem _ he')) hr

end Bounds

/-! ## The next request -/

omit [DecidableEq ω] in
theorem incr_other {k' : K} (hk : k ≠ k') : (s.incr k').2.store k = s.store k := by
  cases hhas : s.has k' with
  | false =>
    rw [incr_create hhas]
    exact put_ne _ hk ..
  | true =>
    obtain ⟨en, hen, hlive⟩ := has_iff.mp hhas
    rw [incr_again hen hlive]
    exact put_ne _ hk ..

omit [DecidableEq ω] in
theorem expire_other {k' : K} {w : Nat} (hk : k ≠ k') : (s.expire k' w).store k = s.store k := by
  unfold State.expire Expiring.expire
  cases (s.store k').filter (Entry.live s.clock) with
  | none => rfl
  | some en => exact put_ne _ hk ..

/-- What a call leaves in the store. -/
theorem count_store (s : State K ω) (c : Nat) (call : Call K ω) (reply : Reply) :
    (s.count c call reply).store =
      (if reply.executed then (s.incr call.check.key).2 else s).store ∧
    (s.count c call reply).clock = s.clock := by
  cases reply with
  | answered =>
    change (if (s.incr call.check.key).1 = 1 then _ else _ : State K ω).store = _ ∧
      (if (s.incr call.check.key).1 = 1 then _ else _ : State K ω).clock = _
    by_cases hone : (s.incr call.check.key).1 = 1
    · rw [if_pos hone]
      exact ⟨rfl, rfl⟩
    · rw [if_neg hone]
      have hl := leaves_decide (s.incr call.check.key).2 c call
        ((s.incr call.check.key).2.windows call.check.key) (s.incr call.check.key).1
      exact ⟨hl.store, hl.clock⟩
  | raised executed => cases executed <;> exact ⟨rfl, rfl⟩
  | died executed => cases executed <;> exact ⟨rfl, rfl⟩

theorem limitLife_store (s : State K ω) (c : Nat) (call : Call K ω) (g : Nat) (reply : Reply) :
    (s.limitLife c call g reply).store =
      (if reply.executed then s.expire call.check.key call.check.window else s).store ∧
    (s.limitLife c call g reply).clock = s.clock := by
  cases reply with
  | answered =>
    have hl := leaves_decide (s.expire call.check.key call.check.window) c call g 1
    exact ⟨hl.store, hl.clock⟩
  | raised executed => cases executed <;> exact ⟨rfl, rfl⟩
  | died executed => cases executed <;> exact ⟨rfl, rfl⟩

/-- A step that does not touch the key. -/
theorem untouched_step (ht : touches k s e = false) (hs : step limiter s e = some s') :
    s'.store k = s.store k ∧ s.clock ≤ s'.clock := by
  obtain ⟨c, request, rfl, -, rfl⟩ | ⟨time, rfl, rfl⟩ | ⟨c, reply, call, rfl, hc, -, rfl⟩ |
    ⟨c, reply, call, g, rfl, hc, -, rfl⟩ := step_cases hs
  · have hl := leaves_begin (c := c) (s := s) (limiter request)
    exact ⟨congrFun hl.store k, Int.le_of_eq hl.clock.symm⟩
  · exact ⟨rfl, Int.le_add_of_nonneg_right (Int.natCast_nonneg time)⟩
  all_goals
    have hkey : reply.executed = true → k ≠ call.check.key := by
      rintro hexecuted rfl
      simp [touches, hexecuted, hc] at ht
  · obtain ⟨hstore, hclock⟩ := count_store s c call reply
    refine ⟨?_, Int.le_of_eq hclock.symm⟩
    rw [hstore]
    split
    · rename_i hexecuted
      exact incr_other (hkey hexecuted)
    · rfl
  · obtain ⟨hstore, hclock⟩ := limitLife_store s c call g reply
    refine ⟨?_, Int.le_of_eq hclock.symm⟩
    rw [hstore]
    split
    · rename_i hexecuted
      exact expire_other (hkey hexecuted)
    · rfl

theorem untouched_run {as : List (Event ρ)}
    (ha : Machine.along (step limiter) (fun s e => !touches k s e) s as = true)
    (hr : Machine.run (step limiter) s as = some s') : s'.store k = s.store k ∧ s.clock ≤ s'.clock := by
  induction as generalizing s with
  | nil =>
    cases hr
    exact ⟨rfl, Int.le_refl _⟩
  | cons e as ih =>
    obtain ⟨s₁, hs, hr⟩ := Machine.run_cons.mp hr
    obtain ⟨ht, ha⟩ := (Machine.along_cons hs).mp ha
    obtain ⟨hstore, hclock⟩ := untouched_step (by simpa using ht) hs
    obtain ⟨hstore', hclock'⟩ := ih ha hr
    exact ⟨hstore'.trans hstore, Int.le_trans hclock hclock'⟩

/-- A key that is left alone for a whole window is gone. -/
theorem gone {as : List (Event ρ)} {window : Nat} (httl : HasTtl s) (hb : Bounded k window s)
    (hno : ¬ Settling s.calls k)
    (ha : Machine.along (step limiter) (fun s e => !touches k s e) s as = true)
    (hr : Machine.run (step limiter) s as = some s') (hw : s.clock + window ≤ s'.clock) :
    s'.has k = false := by
  obtain ⟨hstore, hclock⟩ := untouched_run ha hr
  rw [Bool.eq_false_iff]
  intro hhas
  obtain ⟨en, hen, hlive⟩ := has_iff.mp hhas
  rw [hstore] at hen
  simp only [Entry.live, Option.all_eq_true, decide_eq_true_eq] at hlive
  have hold : en.live s.clock = true := by
    simp only [Entry.live, Option.all_eq_true, decide_eq_true_eq]
    exact fun t ht => Int.lt_of_le_of_lt hclock (hlive t ht)
  obtain ⟨t, ht⟩ := Option.ne_none_iff_exists'.mp (httl k en hen hold hno)
  have hle := hb.expires en t hen ht
  have hlt := hlive t ht
  omega

/-- The next request on the key passes its check. -/
def Admits (limiter : ρ → Limiter K ω) (s : State K ω) (k : K) : Prop :=
  ∀ c call, s.calls c = some call → call.phase = .counting → call.check.key = k → 1 ≤ call.check.limit →
    ∃ s₁ s₂ g, step limiter s (.redis c .answered) = some s₁ ∧
      step limiter s₁ (.redis c .answered) = some s₂ ∧
      s₂.passes = ⟨k, g, call.check.limit, some 1⟩ :: s.passes

theorem admits_of_gone (hk : s.has k = false) : Admits limiter s k := by
  rintro c call hc hphase rfl hlimit
  let g := (s.incr call.check.key).2.windows call.check.key
  let expiring : Call K ω := { call with phase := .expiring g }
  let s₁ := (s.incr call.check.key).2.enter c expiring
  have hone : (s.incr call.check.key).1 = 1 := by rw [incr_create hk]
  have hcount : s.count c call .answered = s₁ := by
    change (if (s.incr call.check.key).1 = 1 then s₁ else _) = s₁
    rw [if_pos hone]
  refine ⟨s₁, s₁.limitLife c expiring g .answered, g, ?_, ?_, ?_⟩
  · rw [step, hc, Option.map_some, hphase]
    exact congrArg some hcount
  · have hc₁ : s₁.calls c = some expiring := Function.update_self ..
    rw [step, hc₁]
    rfl
  · change ((s₁.expire call.check.key call.check.window).decide c expiring g 1).passes = _
    unfold State.decide
    rw [if_neg (Nat.not_lt.mpr hlimit)]
    unfold State.proceed
    split <;> rfl

end FixedWindow
