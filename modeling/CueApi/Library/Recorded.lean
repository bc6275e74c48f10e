import CueApi.Library.Interleaving
import CueApi.Library.ReadCommitted
import CueApi.Library.Trace

/-! Processes on a transactional store that record what they do: what each began and committed,
what it noted on the way and how it ended, newest first. No statement reads the record. The
committed tables are the replay of the commits, so a property of every history whose events are
allowed is a property of every run. -/

namespace Recorded

open ReadCommitted Interleaving Trace

variable {K T W P C M R X ι α β : Type}

/-! ## Histories -/

/-- How a process leaves: it returns, its host dies, or it raises. -/
inductive Ending (R : Type)
  | returned (reply : R)
  | crashed
  | raised
  deriving DecidableEq, Repr

inductive Event (P C W M R : Type)
  | began (p : P) (call : C)
  | commit (p : P) (time : Int) (writes : List W)
  | marked (p : P) (mark : M)
  | ended (p : P) (how : Ending R)

def Event.pid : Event P C W M R → P
  | .began p _ | .commit p _ _ | .marked p _ | .ended p _ => p

def Event.writes : Event P C W M R → List W
  | .commit _ _ ws => ws
  | _ => []

abbrev History (P C W M R : Type) := List (Event P C W M R)

/-- The tables a history leaves. -/
def replay (S : Schema K T W) (t₀ : T) : History P C W M R → T
  | [] => t₀
  | ev :: h => S.applyAll ev.writes (replay S t₀ h)

section Own

variable [DecidableEq P]

/-- The events of one process. -/
def own (p : P) (h : History P C W M R) : History P C W M R := h.filter fun ev => ev.pid = p

/-- The call a process runs. -/
def callOf (p : P) : History P C W M R → Option C
  | [] => none
  | .began q call :: h => if q = p then some call else callOf p h
  | _ :: h => callOf p h

variable {p : P} {ev : Event P C W M R} {h h' : History P C W M R}

theorem mem_own : ev ∈ own p h ↔ ev ∈ h ∧ ev.pid = p := by
  simp [own]

theorem own_cons_of_pid (hp : ev.pid = p) (h : History P C W M R) :
    own p (ev :: h) = ev :: own p h := by
  simp [own, hp]

theorem own_commit (p : P) (time : Int) (ws : List W) (h : History P C W M R) :
    own p (.commit p time ws :: h) = .commit p time ws :: own p h := own_cons_of_pid rfl h

theorem own_marked (p : P) (m : M) (h : History P C W M R) :
    own p (.marked p m :: h) = .marked p m :: own p h := own_cons_of_pid rfl h

theorem own_began (p : P) (call : C) (h : History P C W M R) :
    own p (.began p call :: h) = .began p call :: own p h := own_cons_of_pid rfl h

theorem own_cons_of_ne (hp : ev.pid ≠ p) (h : History P C W M R) :
    own p (ev :: h) = own p h := by
  simp [own, hp]

theorem own_append (h h' : History P C W M R) : own p (h ++ h') = own p h ++ own p h' :=
  List.filter_append ..

theorem own_suffix (hs : h <:+ h') : own p h <:+ own p h' := by
  obtain ⟨pre, rfl⟩ := hs
  rw [own_append]
  exact List.suffix_append _ _

/-- The events of a process are told apart by how many of its own came before. -/
theorem suffix_eq_of_own {ev' : Event P C W M R} {h₁ h₂ : History P C W M R} (hs : ev :: h₁ <:+ h)
    (hs' : ev' :: h₂ <:+ h) (hp : ev.pid = p) (hp' : ev'.pid = p)
    (hown : (own p h₁).length = (own p h₂).length) : ev :: h₁ = ev' :: h₂ := by
  rcases suffix_cases hs hs' with heq | hsuf | hsuf
  · exact heq
  · have hle := (own_suffix (p := p) hsuf).length_le
    rw [own_cons_of_pid hp, List.length_cons, hown] at hle
    exact absurd hle (Nat.not_succ_le_self _)
  · have hle := (own_suffix (p := p) hsuf).length_le
    rw [own_cons_of_pid hp', List.length_cons, hown] at hle
    exact absurd hle (Nat.not_succ_le_self _)

theorem callOf_own (p : P) (h : History P C W M R) : callOf p (own p h) = callOf p h := by
  induction h with
  | nil => rfl
  | cons ev h ih =>
    by_cases hp : ev.pid = p
    · rw [own_cons_of_pid hp]
      cases ev with
      | began q call => simp [callOf, ih]
      | commit q time ws => simpa [callOf] using ih
      | marked q m => simpa [callOf] using ih
      | ended q how => simpa [callOf] using ih
    · rw [own_cons_of_ne hp, ih]
      cases ev with
      | began q call => exact (if_neg hp).symm
      | commit q time ws => rfl
      | marked q m => rfl
      | ended q how => rfl

theorem callOf_cons_isSome (ev : Event P C W M R) (hc : (callOf p h).isSome) :
    (callOf p (ev :: h)).isSome := by
  cases ev with
  | began q call =>
    simp only [callOf]
    split
    · rfl
    · exact hc
  | commit q time ws => exact hc
  | marked q m => exact hc
  | ended q how => exact hc

theorem callOf_suffix_isSome (hs : h <:+ h') (hc : (callOf p h).isSome) :
    (callOf p h').isSome := by
  obtain ⟨pre, rfl⟩ := hs
  induction pre with
  | nil => exact hc
  | cons ev pre ih => exact callOf_cons_isSome ev ih

/-- The call of a process that has begun is in its record. -/
theorem began_of_callOf {call : C} (hc : callOf p h = some call) : .began p call ∈ h := by
  induction h with
  | nil => cases hc
  | cons ev h ih =>
    cases ev with
    | began q c =>
      simp only [callOf] at hc
      split at hc
      · rename_i hq
        cases hc
        subst hq
        exact List.mem_cons_self
      · exact List.mem_cons_of_mem _ (ih hc)
    | commit q time ws => exact List.mem_cons_of_mem _ (ih hc)
    | marked q m => exact List.mem_cons_of_mem _ (ih hc)
    | ended q how => exact List.mem_cons_of_mem _ (ih hc)

theorem mem_of_own_eq {E : History P C W M R} (ho : own p h = E) (hm : ev ∈ E) : ev ∈ h := by
  rw [← ho] at hm
  exact (mem_own.mp hm).1

end Own

/-! ## Worlds -/

/-- The store, what the processes share besides it, and the record. -/
structure World (S : Schema K T W) (P C M R X : Type) where
  store : Store S P
  outside : X
  clock : Int
  history : History P C W M R

variable {S : Schema K T W}

namespace World

def tables (w : World S P C M R X) : T := w.store.tables

def view (w : World S P C M R X) (p : P) : T := w.store.view p

def log (w : World S P C M R X) (ev : Event P C W M R) : World S P C M R X :=
  { w with history := ev :: w.history }

def commit [DecidableEq P] (w : World S P C M R X) (p : P) : World S P C M R X :=
  { w with
    store := w.store.commit p
    history := .commit p w.clock (w.store.buf p) :: w.history }

end World

section Rely

variable [DecidableEq P]

/-- The tables are the replay, every event was allowed, and commits are stamped in order. -/
structure Inv (t₀ : T) (A : History P C W M R → Event P C W M R → Prop)
    (w : World S P C M R X) : Prop where
  tables : w.tables = replay S t₀ w.history
  legal : Along A w.history
  clock : ∀ p time ws, .commit p time ws ∈ w.history → time ≤ w.clock

/-- What every step of the other processes keeps for `p`. -/
structure Rely (p : P) (w w' : World S P C M R X) : Prop where
  store : Store.Kept p w.store w'.store
  own : own p w'.history = own p w.history
  history : w.history <:+ w'.history
  clock : w.clock ≤ w'.clock

/-- A later world for `p`, whatever `p` itself has written in between. -/
structure Later (p : P) (w w' : World S P C M R X) : Prop where
  locks : ∀ k, w.store.locks k = some p → w'.store.locks k = some p
  rows : ∀ k, w.store.locks k = some p → S.row k w'.tables = S.row k w.tables
  history : w.history <:+ w'.history
  clock : w.clock ≤ w'.clock

/-- Where `p` stands: its open writes, newest first, and its own events. -/
structure At (p : P) (B : List W) (E : History P C W M R) (w : World S P C M R X) : Prop where
  buf : w.store.buf p = B
  own : own p w.history = E

variable {t₀ : T} {A : History P C W M R → Event P C W M R → Prop}
variable {p q : P} {B B' : List W} {E E' : History P C W M R} {w w' w'' : World S P C M R X}

theorem Rely.refl (p : P) (w : World S P C M R X) : Rely p w w :=
  ⟨.refl p w.store, rfl, List.suffix_refl _, Int.le_refl _⟩

theorem Rely.trans (h : Rely p w w') (h' : Rely p w' w'') : Rely p w w'' :=
  ⟨h.store.trans h'.store, h'.own.trans h.own, h.history.trans h'.history,
    Int.le_trans h.clock h'.clock⟩

omit [DecidableEq P] in
theorem Later.refl (p : P) (w : World S P C M R X) : Later p w w :=
  ⟨fun _ h => h, fun _ _ => rfl, List.suffix_refl _, Int.le_refl _⟩

omit [DecidableEq P] in
theorem Later.trans (h : Later p w w') (h' : Later p w' w'') : Later p w w'' :=
  ⟨fun k hk => h'.locks k (h.locks k hk),
    fun k hk => (h'.rows k (h.locks k hk)).trans (h.rows k hk),
    h.history.trans h'.history, Int.le_trans h.clock h'.clock⟩

theorem Rely.later (h : Rely p w w') : Later p w w' :=
  ⟨h.store.locks, h.store.rows, h.history, h.clock⟩

omit [DecidableEq P] in
/-- A row that `p` has locked is frozen. -/
theorem Later.frozen (h : Later p w w') (hi : Inv t₀ A w) (hi' : Inv t₀ A w') {k : K}
    (hk : w.store.locks k = some p) :
    S.row k (replay S t₀ w'.history) = S.row k (replay S t₀ w.history) := by
  rw [← hi'.tables, ← hi.tables]
  exact h.rows k hk

theorem At.rely (h : At p B E w) (hr : Rely p w w') : At p B E w' :=
  ⟨hr.store.buf.trans h.buf, hr.own.trans h.own⟩

theorem At.view (h : At p B E w) (hi : Inv t₀ A w) :
    w.view p = S.applyAll B (replay S t₀ w.history) := by
  unfold World.view Store.view
  rw [h.buf, ← hi.tables]
  rfl

/-- An open write holds its locks. -/
theorem At.locked (h : At p B E w) {wr : W} (hw : wr ∈ B) {k : K} (hk : k ∈ S.keys wr) :
    w.store.locks k = some p := w.store.held p wr (by rw [h.buf]; exact hw) k hk

theorem At.callOf_eq (h : At p B E w) : callOf p w.history = callOf p E := by
  rw [← h.own, callOf_own]

omit [DecidableEq P] in
theorem Inv.log (hi : Inv t₀ A w) (ev : Event P C W M R) (ha : A w.history ev)
    (hev : ∀ q time ws, ev ≠ .commit q time ws) : Inv t₀ A (w.log ev) where
  tables := by
    have hws : ev.writes = [] := by
      cases ev with
      | commit q time ws => exact absurd rfl (hev q time ws)
      | _ => rfl
    change w.tables = S.applyAll ev.writes (replay S t₀ w.history)
    rw [hws, hi.tables]
    rfl
  legal := ⟨ha, hi.legal⟩
  clock q time ws hm := by
    rcases List.mem_cons.mp hm with heq | hm
    · exact absurd heq.symm (hev q time ws)
    · exact hi.clock q time ws hm

theorem Rely.log (w : World S P C M R X) {ev : Event P C W M R} (hq : ev.pid ≠ q) :
    Rely q w (w.log ev) :=
  ⟨.refl q w.store, own_cons_of_ne hq _, List.suffix_cons _ _, Int.le_refl _⟩

/-! ## Statements -/

/-- A step of `p` that keeps the invariant, harms no other process and leaves `p` where `B` and `E`
say. -/
structure Stepped (t₀ : T) (A : History P C W M R → Event P C W M R → Prop) (p : P) (B : List W)
    (E : History P C W M R) (w w' : World S P C M R X) : Prop where
  inv : Inv t₀ A w'
  rely : ∀ q, q ≠ p → Rely q w w'
  at_ : At p B E w'

theorem Stepped.trans (h : Stepped t₀ A p B E w w') (h' : Stepped t₀ A p B' E' w' w'') :
    Stepped t₀ A p B' E' w w'' :=
  ⟨h'.inv, fun q hq => (h.rely q hq).trans (h'.rely q hq), h'.at_⟩

theorem Rely.quiet (q : P) (hs : w'.store = w.store) (hh : w'.history = w.history)
    (hc : w'.clock = w.clock) : Rely q w w' :=
  ⟨hs ▸ .refl q w.store, by rw [hh], by rw [hh], Int.le_of_eq hc.symm⟩

/-- The store and the record stay. -/
theorem Stepped.quiet (hw : At p B E w) (hi : Inv t₀ A w) (hs : w'.store = w.store)
    (hh : w'.history = w.history) (hc : w'.clock = w.clock) : Stepped t₀ A p B E w w' := by
  refine ⟨⟨?_, by rw [hh]; exact hi.legal, by rw [hh, hc]; exact hi.clock⟩,
    fun q _ => .quiet q hs hh hc, hw.rely (.quiet p hs hh hc)⟩
  rw [hh, ← hi.tables]
  exact congrArg Store.tables hs

/-- The rest of the shared state moves on after a step. -/
theorem Stepped.outside (h : Stepped t₀ A p B E w w') (x : X) :
    Stepped t₀ A p B E w { w' with outside := x } :=
  h.trans (Stepped.quiet h.at_ h.inv rfl rfl rfl)

theorem Stepped.mark (hw : At p B E w) (hi : Inv t₀ A w) {m : M}
    (ha : A w.history (.marked p m)) :
    Stepped t₀ A p B (.marked p m :: E) w (w.log (.marked p m)) where
  inv := hi.log _ ha (by simp)
  rely q hq := .log w fun heq => hq heq.symm
  at_ := ⟨hw.buf, (own_marked p m _).trans (by rw [hw.own])⟩

omit [DecidableEq P] in
theorem Later.log (p : P) (w : World S P C M R X) (ev : Event P C W M R) : Later p w (w.log ev) :=
  ⟨fun _ h => h, fun _ _ => rfl, List.suffix_cons _ _, Int.le_refl _⟩

omit [DecidableEq P] in
theorem Later.outside (p : P) (w : World S P C M R X) (x : X) :
    Later p w { w with outside := x } :=
  ⟨fun _ h => h, fun _ _ => rfl, List.suffix_refl _, Int.le_refl _⟩

theorem Stepped.commit (hw : At p B E w) (hi : Inv t₀ A w)
    (ha : A w.history (.commit p w.clock B)) :
    Stepped t₀ A p [] (.commit p w.clock B :: E) w (w.commit p) where
  inv := by
    have hb : w.store.buf p = B := hw.buf
    refine ⟨?_, ⟨hb ▸ ha, hi.legal⟩, fun q time ws hm => ?_⟩
    · change w.view p = S.applyAll (w.store.buf p) (replay S t₀ w.history)
      rw [hw.view hi, hw.buf]
    · rcases List.mem_cons.mp hm with heq | hm
      · cases heq
        exact Int.le_refl _
      · exact hi.clock q time ws hm
  rely q hq := ⟨Store.commit_kept w.store hq, own_cons_of_ne (fun heq => hq heq.symm) _,
    List.suffix_cons _ _, Int.le_refl _⟩
  at_ := by
    refine ⟨Function.update_self p _ _, ?_⟩
    change own p (.commit p w.clock (w.store.buf p) :: w.history) = _
    rw [own_commit, hw.own, hw.buf]

variable [DecidableEq K]

omit [DecidableEq P] [DecidableEq K] in
/-- Taking locks and writing let go of no lock of `p` and leave the committed tables. -/
theorem Later.of_store {s : Store S P} (ht : s.tables = w.store.tables)
    (hl : ∀ k, w.store.locks k = some p → s.locks k = some p) :
    Later p w { w with store := s } :=
  ⟨hl, fun k _ => congrArg (S.row k) ht, List.suffix_refl _, Int.le_refl _⟩

theorem Later.lock {s : Store S P} {ks : List K} (hs : w.store.lock p ks = some s) :
    Later p w { w with store := s } := by
  obtain ⟨ht, -, hl, -⟩ := Store.lock_eq hs
  refine .of_store ht fun k hk => ?_
  rw [hl]
  split
  · rfl
  · exact hk

theorem Later.write {s : Store S P} {wr : W} (hs : w.store.write p wr = some s) :
    Later p w { w with store := s } := by
  obtain ⟨ht, -, hl, -⟩ := Store.write_eq hs
  refine .of_store ht fun k hk => ?_
  rw [hl]
  split
  · rfl
  · exact hk

theorem Stepped.lock {s : Store S P} {ks : List K} (hw : At p B E w) (hi : Inv t₀ A w)
    (hs : w.store.lock p ks = some s) : Stepped t₀ A p B E w { w with store := s } where
  inv := ⟨(Store.lock_eq hs).1.trans hi.tables, hi.legal, hi.clock⟩
  rely _ hq := ⟨Store.lock_kept hs hq, rfl, List.suffix_refl _, Int.le_refl _⟩
  at_ := ⟨(congrFun (Store.lock_eq hs).2.1 p).trans hw.buf, hw.own⟩

theorem Stepped.write {s : Store S P} {wr : W} (hw : At p B E w) (hi : Inv t₀ A w)
    (hs : w.store.write p wr = some s) :
    Stepped t₀ A p (wr :: B) E w { w with store := s } where
  inv := ⟨(Store.write_eq hs).1.trans hi.tables, hi.legal, hi.clock⟩
  rely _ hq := ⟨Store.write_kept hs hq, rfl, List.suffix_refl _, Int.le_refl _⟩
  at_ := ⟨by rw [(Store.write_eq hs).2.1, Function.update_self, hw.buf], hw.own⟩

omit [DecidableEq K]

/-- `prog` is safe for `p` from `w` on. -/
abbrev Runs (t₀ : T) (A : History P C W M R → Event P C W M R → Prop) (p : P)
    (Q : α → World S P C M R X → Prop) (prog : Prog (World S P C M R X) ι α)
    (w : World S P C M R X) : Prop :=
  Safe (Inv t₀ A) Rely p Q prog w

variable {Q : α → World S P C M R X → Prop}

/-- The rule of a statement: wherever it is issued, it leaves `p` somewhere, and the rest of the
program is safe from there. -/
theorem runs_step {act : World S P C M R X → ι → Option (β × World S P C M R X)}
    {k : β → Prog (World S P C M R X) ι α} (hw : At p B E w)
    (h : ∀ w', Later p w w' → At p B E w' → Inv t₀ A w' → ∀ i r w'', act w' i = some (r, w'') →
      ∃ B' E', Stepped t₀ A p B' E' w' w'' ∧ Runs t₀ A p Q (k r) w'') :
    Runs t₀ A p Q (Prog.step act >>= k) w := by
  apply Safe.step_bind
  intro w₁ hr hi i r w₂ hs
  obtain ⟨B', E', hst, hk⟩ := h w₁ hr.later (hw.rely hr) hi i r w₂ hs
  exact ⟨hst.inv, hst.rely, hk⟩

/-- A statement that leaves the store and the record as they are. -/
theorem runs_quiet {act : World S P C M R X → ι → Option (β × World S P C M R X)}
    {k : β → Prog (World S P C M R X) ι α} (hw : At p B E w)
    (hact : ∀ w' i r w'', act w' i = some (r, w'') →
      w''.store = w'.store ∧ w''.history = w'.history ∧ w''.clock = w'.clock)
    (h : ∀ w' w'' i r, Later p w w'' → At p B E w'' → Inv t₀ A w'' → act w' i = some (r, w'') →
      w''.view p = w'.view p → w''.clock = w'.clock → Runs t₀ A p Q (k r) w'') :
    Runs t₀ A p Q (Prog.step act >>= k) w := by
  refine runs_step hw fun w' hl hw' hi i r w'' hs => ?_
  obtain ⟨hst, hh, hc⟩ := hact w' i r w'' hs
  have hstep := Stepped.quiet hw' hi hst hh hc
  exact ⟨B, E, hstep, h w' w'' i r (hl.trans (Rely.quiet p hst hh hc).later) hstep.at_ hstep.inv hs
    (congrArg (Store.view · p) hst) hc⟩

/-- Whatever a program does is added to the record. -/
theorem Runs.since [Nontrivial P] {prog : Prog (World S P C M R X) ι α}
    (h : Runs t₀ A p Q prog w) :
    Runs t₀ A p (fun a w' => Q a w' ∧ w.history <:+ w'.history) prog w := by
  obtain ⟨q, hq⟩ := exists_ne p
  induction prog generalizing w with
  | ret a => exact ⟨h, List.suffix_refl _⟩
  | fail => trivial
  | atomic act k ih =>
    intro w₁ hr hi i r w₂ hs
    obtain ⟨hi₂, hrely, hk⟩ := h w₁ hr hi i r w₂ hs
    refine ⟨hi₂, hrely, (ih r hk).weaken fun a w' ⟨hQ, hsuf⟩ => ⟨hQ, ?_⟩⟩
    exact (hr.history.trans (hrely q hq).history).trans hsuf

end Rely

/-! ## Systems -/

inductive Action (P C ι : Type)
  | start (p : P) (call : C)
  | advance (p : P) (a : ι)
  | leave (p : P)
  | raise (p : P)
  | tick (d : Nat)

/-- How a process that leaves has ended: one that has a statement to come has died. -/
def endingOf : Prog (World S P C M R X) ι R → Ending R
  | .ret reply => .returned reply
  | .fail => .raised
  | .atomic _ _ => .crashed

abbrev System (S : Schema K T W) (P C M R X ι : Type) := Config P (World S P C M R X) ι R

section Systems

variable [DecidableEq P] (programOf : P → C → Prog (World S P C M R X) ι R)

/-- End `p`: its session closes, which rolls back what it did not commit. -/
def left (s : System S P C M R X ι) (p : P) (how : Ending R) : System S P C M R X ι :=
  s.put { s.shared with
    store := s.shared.store.rollback p
    history := .ended p how :: s.shared.history } p none

def step (s : System S P C M R X ι) : Action P C ι → Option (System S P C M R X ι)
  | .start p call =>
      if (own p s.shared.history).isEmpty ∧ (s.shared.store.buf p).isEmpty then
        some (s.put (s.shared.log (.began p call)) p (some (programOf p call)))
      else none
  | .advance p a => s.advance p a
  | .leave p => (s.procs p).map fun prog => left s p (endingOf prog)
  | .raise p => (s.procs p).map fun _ => left s p .raised
  | .tick d => some { s with shared := { s.shared with clock := s.shared.clock + d } }

def run (s : System S P C M R X ι) : List (Action P C ι) → Option (System S P C M R X ι)
  | [] => some s
  | a :: as => (step programOf s a).bind fun s' => run s' as

theorem run_append (s : System S P C M R X ι) (as bs : List (Action P C ι)) :
    run programOf s (as ++ bs) = (run programOf s as).bind fun s' => run programOf s' bs := by
  induction as generalizing s with
  | nil => rfl
  | cons a as ih =>
    simp only [List.cons_append, run]
    cases step programOf s a with
    | none => rfl
    | some s' => exact ih s'

def init (t₀ : T) (x : X) (now : Int) : System S P C M R X ι :=
  ⟨⟨Store.start S P t₀, x, now, []⟩, fun _ => none⟩

/-- The programs keep to what is allowed, whoever they run beside. -/
structure Keeps (S : Schema K T W) (t₀ : T) (A : History P C W M R → Event P C W M R → Prop)
    (programOf : P → C → Prog (World S P C M R X) ι R) : Prop where
  began : ∀ h p call, own p h = [] → A h (.began p call)
  left : ∀ h p call how, callOf p h = some call → (∀ reply, how ≠ .returned reply) →
    A h (.ended p how)
  stable : ∀ h h' p reply, h <:+ h' → own p h' = own p h → A h (.ended p (.returned reply)) →
    A h' (.ended p (.returned reply))
  runs : ∀ p call w, At p [] [.began p call] w → Inv t₀ A w →
    Runs t₀ A p (fun reply w => A w.history (.ended p (.returned reply))) (programOf p call) w

/-! ### Every run is a history of allowed events -/

variable {t₀ : T} {A : History P C W M R → Event P C W M R → Prop}
variable {programOf} {s s' : System S P C M R X ι} {p : P} {w : World S P C M R X}

/-- The invariant of a system. -/
structure Sound (t₀ : T) (A : History P C W M R → Event P C W M R → Prop)
    (s : System S P C M R X ι) : Prop where
  good : Good (Inv t₀ A) Rely (fun p reply w => A w.history (.ended p (.returned reply))) s
  called : ∀ p, (s.procs p).isSome → (callOf p s.shared.history).isSome

private theorem rely_trans (p : P) {a b c : World S P C M R X} (h : Rely p a b)
    (h' : Rely p b c) : Rely p a c := h.trans h'

theorem Keeps.justified (hk : Keeps S t₀ A programOf) (p : P) (reply : R)
    (w w' : World S P C M R X) (hr : Rely p w w') (hj : A w.history (.ended p (.returned reply))) :
    A w'.history (.ended p (.returned reply)) :=
  hk.stable w.history w'.history p reply hr.history hr.own hj

theorem Inv.leave (hi : Inv t₀ A w) {how : Ending R} (ha : A w.history (.ended p how)) :
    Inv t₀ A { w with store := w.store.rollback p, history := .ended p how :: w.history } where
  tables := hi.tables
  legal := ⟨ha, hi.legal⟩
  clock q time ws hm := by
    rcases List.mem_cons.mp hm with heq | hm
    · cases heq
    · exact hi.clock q time ws hm

theorem Sound.left (hk : Keeps S t₀ A programOf) (h : Sound t₀ A s) {how : Ending R}
    (ha : A s.shared.history (.ended p how)) : Sound t₀ A (left s p how) where
  good := by
    refine h.good.put rely_trans hk.justified (h.good.1.leave ha)
      (fun q hq => ⟨Store.rollback_kept _ hq, own_cons_of_ne ?_ _, List.suffix_cons _ _,
        Int.le_refl _⟩) (by simp)
    exact fun heq => hq heq.symm
  called q hq := by
    refine callOf_cons_isSome _ (h.called q ?_)
    by_cases hqp : q = p
    · subst hqp
      simp [Recorded.left, Config.put] at hq
    · simpa [Recorded.left, Config.put, hqp] using hq

theorem Sound.drift (hk : Keeps S t₀ A programOf) (h : Sound t₀ A s) (hi : Inv t₀ A w)
    (hr : ∀ q, Rely q s.shared w) : Sound t₀ A { s with shared := w } where
  good := h.good.drift rely_trans hk.justified hi hr
  called q hq := callOf_suffix_isSome (hr q).history (h.called q hq)

theorem Sound.start (hk : Keeps S t₀ A programOf) (h : Sound t₀ A s) {call : C}
    (hown : own p s.shared.history = []) (hbuf : s.shared.store.buf p = []) :
    Sound t₀ A (s.put (s.shared.log (.began p call)) p (some (programOf p call))) where
  good := by
    have hi := h.good.1.log (.began p call) (hk.began _ p call hown) (by simp)
    refine h.good.put rely_trans hk.justified hi (fun q hq => .log _ fun heq => hq heq.symm) ?_
    rintro m ⟨⟩
    exact hk.runs p call _ ⟨hbuf, (own_began p call _).trans (by rw [hown])⟩ hi
  called q hq := by
    by_cases hqp : q = p
    · subst hqp
      simp [Config.put, World.log, callOf]
    · exact callOf_cons_isSome _ (h.called q (by simpa [Config.put, hqp] using hq))

theorem Sound.moved (h : Sound t₀ A s) {a : ι} (hs : s.advance p a = some s') (q : P)
    (hq : q ≠ p) : Rely q s.shared s'.shared := by
  unfold Config.advance at hs
  split at hs
  · rename_i act k hp
    obtain ⟨⟨r, w⟩, hact, rfl⟩ := Option.map_eq_some_iff.mp hs
    exact (h.good.2 p _ hp s.shared (.refl p _) h.good.1 a r w hact).2.1 q hq
  · cases hs

/-- A step keeps the invariant and only adds to the history. -/
theorem Sound.step [Nontrivial P] (hk : Keeps S t₀ A programOf) (h : Sound t₀ A s)
    {a : Action P C ι} (hs : step programOf s a = some s') :
    Sound t₀ A s' ∧ s.shared.history <:+ s'.shared.history := by
  have gone : ∀ {p : P} {prog : Prog (World S P C M R X) ι R} {how : Ending R},
      s.procs p = some prog → (how = .raised ∨ how = endingOf prog) →
      Sound t₀ A (Recorded.left s p how) := by
    intro p prog how hp hhow
    obtain ⟨call, hc⟩ := Option.isSome_iff_exists.mp (h.called p (by simp [hp]))
    have hgood := h.good.2 p prog hp
    refine h.left hk ?_
    rcases hhow with rfl | rfl
    · exact hk.left _ p call _ hc (by simp)
    · cases prog with
      | ret reply => exact hgood
      | fail => exact hk.left _ p call _ hc (by simp [endingOf])
      | atomic act k => exact hk.left _ p call _ hc (by simp [endingOf])
  cases a with
  | start p call =>
    simp only [Recorded.step] at hs
    split at hs
    · rename_i hcond
      cases hs
      exact ⟨h.start hk (List.isEmpty_iff.mp hcond.1) (List.isEmpty_iff.mp hcond.2),
        List.suffix_cons _ _⟩
    · cases hs
  | advance p a =>
    obtain ⟨q, hq⟩ := exists_ne p
    have hsuf := (h.moved hs q hq).history
    refine ⟨⟨h.good.advance rely_trans Rely.refl hk.justified hs, fun q hq => ?_⟩, hsuf⟩
    refine callOf_suffix_isSome hsuf (h.called q ?_)
    simp only [Recorded.step, Config.advance] at hs
    split at hs
    · rename_i act k hp
      obtain ⟨⟨r, w⟩, hact, rfl⟩ := Option.map_eq_some_iff.mp hs
      by_cases hqp : q = p
      · simp [hqp, hp]
      · simpa [hqp] using hq
    · cases hs
  | leave p =>
    obtain ⟨prog, hp, rfl⟩ := Option.map_eq_some_iff.mp hs
    exact ⟨gone hp (.inr rfl), List.suffix_cons _ _⟩
  | raise p =>
    obtain ⟨prog, hp, rfl⟩ := Option.map_eq_some_iff.mp hs
    exact ⟨gone hp (.inl rfl), List.suffix_cons _ _⟩
  | tick d =>
    cases hs
    have hle : s.shared.clock ≤ s.shared.clock + d :=
      Int.le_add_of_nonneg_right (Int.natCast_nonneg d)
    refine ⟨h.drift hk ⟨h.good.1.tables, h.good.1.legal, fun q time ws hm => ?_⟩ fun q =>
      ⟨.refl q _, rfl, List.suffix_refl _, hle⟩, List.suffix_refl _⟩
    exact Int.le_trans (h.good.1.clock q time ws hm) hle

theorem Sound.run [Nontrivial P] (hk : Keeps S t₀ A programOf) (h : Sound t₀ A s)
    {as : List (Action P C ι)} (hr : run programOf s as = some s') :
    Sound t₀ A s' ∧ s.shared.history <:+ s'.shared.history := by
  induction as generalizing s with
  | nil =>
    cases hr
    exact ⟨h, List.suffix_refl _⟩
  | cons a as ih =>
    obtain ⟨s₁, hs, hr⟩ := Option.bind_eq_some_iff.mp hr
    obtain ⟨h₁, hsuf⟩ := h.step hk hs
    obtain ⟨h', hsuf'⟩ := ih h₁ hr
    exact ⟨h', hsuf.trans hsuf'⟩

theorem sound_init (t₀ : T) (A : History P C W M R → Event P C W M R → Prop) (x : X) (now : Int) :
    Sound t₀ A (init t₀ x now : System S P C M R X ι) where
  good := ⟨⟨rfl, trivial, by simp [init]⟩, by simp [init]⟩
  called := by simp [init]

end Systems

end Recorded
