import CueApi.Scheduler.Effects

/-! The rule of each statement. `Inv` ties the tables to the history, `Rely` is
what the other processes keep for `p`, and a program is verified statement by
statement: after each one the proof goes on in some later world, where the rows
`p` has locked are as they were and all other rows have only grown. -/

namespace CueApi.Scheduler

open ReadCommitted Interleaving Trace

structure Inv (env : Env) (w : World) : Prop where
  tables : w.tables = replay w.history
  legal : Legal env w.history
  clock : ∀ p time ws, .commit p time ws ∈ w.history → time ≤ w.clock

/-- What every step of the other processes keeps for `p`. -/
structure Rely (p : Pid) (w w' : World) : Prop where
  store : Store.Kept p w.store w'.store
  own : own p w'.history = own p w.history
  history : w.history <:+ w'.history
  clock : w.clock ≤ w'.clock

theorem Rely.refl (p : Pid) (w : World) : Rely p w w :=
  ⟨.refl p w.store, rfl, List.suffix_refl _, Int.le_refl _⟩

theorem Rely.trans {p : Pid} {a b c : World} (h : Rely p a b) (h' : Rely p b c) : Rely p a c :=
  ⟨h.store.trans h'.store, h'.own.trans h.own, h.history.trans h'.history,
    Int.le_trans h.clock h'.clock⟩

/-- A later world for `p`, whatever `p` itself has written in between. -/
structure Later (p : Pid) (w w' : World) : Prop where
  locks : ∀ k, w.store.locks k = some p → w'.store.locks k = some p
  rows : ∀ k, w.store.locks k = some p → w'.tables.row k = w.tables.row k
  history : w.history <:+ w'.history
  clock : w.clock ≤ w'.clock

theorem Later.trans {p : Pid} {a b c : World} (h : Later p a b) (h' : Later p b c) :
    Later p a c :=
  ⟨fun k hk => h'.locks k (h.locks k hk),
    fun k hk => (h'.rows k (h.locks k hk)).trans (h.rows k hk),
    h.history.trans h'.history, Int.le_trans h.clock h'.clock⟩

theorem Rely.later {p : Pid} {w w' : World} (h : Rely p w w') : Later p w w' :=
  ⟨h.store.locks, h.store.rows, h.history, h.clock⟩

theorem Later.grows {p : Pid} {w w' : World} (h : Later p w w') :
    (replay w.history).Grows (replay w'.history) := .replay_suffix h.history

/-- A row that `p` has locked is frozen. -/
theorem Later.frozen {env : Env} {p : Pid} {w w' : World} (h : Later p w w') (hi : Inv env w)
    (hi' : Inv env w') {k : Key} (hk : w.store.locks k = some p) :
    (replay w'.history).row k = (replay w.history).row k := by
  rw [← hi'.tables, ← hi.tables]
  exact h.rows k hk

/-- Where `p` stands: its open writes, newest first, and its own events. -/
structure At (p : Pid) (B : List Write) (E : History) (w : World) : Prop where
  buf : w.store.buf p = B
  own : own p w.history = E

section Facts

variable {env : Env} {p : Pid} {B : List Write} {E : History} {w w' : World}

theorem At.rely (h : At p B E w) (hr : Rely p w w') : At p B E w' :=
  ⟨hr.store.buf.trans h.buf, hr.own.trans h.own⟩

theorem At.view (h : At p B E w) : w.view p = schema.applyAll B w.tables := by
  unfold World.view Store.view
  rw [h.buf]
  rfl

/-- An open write holds its locks. -/
theorem At.locked (h : At p B E w) {wr : Write} (hw : wr ∈ B) {k : Key} (hk : k ∈ wr.keys) :
    w.store.locks k = some p := w.store.held p wr (by rw [h.buf]; exact hw) k hk

theorem At.locked_head {wr : Write} (h : At p (wr :: B) E w) {k : Key} (hk : k ∈ wr.keys) :
    w.store.locks k = some p := h.locked (List.mem_cons_self ..) hk

theorem At.callOf_eq (h : At p B E w) : callOf p w.history = callOf p E := by
  rw [← h.own, callOf_own]

theorem Inv.log (hi : Inv env w) (ev : Event) (ha : Allowed env w.history ev)
    (hev : ∀ q time ws, ev ≠ .commit q time ws) : Inv env (w.log ev) where
  tables := by
    rw [show (w.log ev).tables = w.tables from rfl, hi.tables]
    cases ev <;> first | rfl | exact absurd rfl (hev _ _ _)
  legal := ⟨ha, hi.legal⟩
  clock q time ws hm := by
    rcases List.mem_cons.mp hm with heq | hm
    · exact absurd heq.symm (hev q time ws)
    · exact hi.clock q time ws hm

theorem Rely.log {q : Pid} (w : World) {ev : Event} (hq : ev.pid ≠ some q) :
    Rely q w (w.log ev) :=
  ⟨.refl q w.store, own_cons_of_ne hq _, List.suffix_cons _ _, Int.le_refl _⟩

end Facts

section Rules

variable {env : Env} {p : Pid} {B : List Write} {E : History} {w : World} {α : Type}
variable {Q : α → World → Prop}

/-- `prog` is safe for `p` from `w` on. -/
abbrev Runs (env : Env) (p : Pid) (Q : α → World → Prop) (prog : Program α) (w : World) : Prop :=
  Safe (Inv env) Rely p Q prog w

theorem runs_clock {k : Time → Program α} (hw : At p B E w)
    (h : ∀ w', Later p w w' → At p B E w' → Inv env w' → Runs env p Q (k w'.clock) w') :
    Runs env p Q (clock >>= k) w := by
  apply Safe.step_bind
  intro w₁ hr hi a r w₂ hs
  cases hs
  exact ⟨hi, fun q _ => .refl q w₁, h w₁ hr.later (hw.rely hr) hi⟩

theorem runs_select {β : Type} {q : Tables → β} {k : β → Program α} (hw : At p B E w)
    (h : ∀ w', Later p w w' → At p B E w' → Inv env w' →
      Runs env p Q (k (q (schema.applyAll B (replay w'.history)))) w') :
    Runs env p Q (select p q >>= k) w := by
  apply Safe.step_bind
  intro w₁ hr hi a r w₂ hs
  cases hs
  have hw₁ := hw.rely hr
  refine ⟨hi, fun q _ => .refl q w₁, ?_⟩
  rw [hw₁.view, hi.tables]
  exact h w₁ hr.later hw₁ hi

theorem mem_rowsAt {V : Type} {t : Table Nat V} {ids : List Nat} {x : Nat × V}
    (hx : x ∈ rowsAt t ids) : x.1 ∈ ids ∧ t.lookup x.1 = some x.2 := by
  obtain ⟨i, hi, hl⟩ := List.mem_filterMap.mp hx
  obtain ⟨v, hv, rfl⟩ := Option.map_eq_some_iff.mp hl
  exact ⟨hi, hv⟩

/-- The rows that an id list picks, when all are there. -/
theorem rowsAt_fst {V : Type} {t : Table Nat V} {ids : List Nat}
    (h : ∀ i ∈ ids, ∃ v, t.lookup i = some v) : (rowsAt t ids).map Prod.fst = ids := by
  induction ids with
  | nil => rfl
  | cons i ids ih =>
    obtain ⟨v, hv⟩ := h i (by simp)
    have ih := ih fun j hj => h j (by simp [hj])
    unfold rowsAt at ih ⊢
    rw [List.filterMap_cons, hv]
    exact congrArg (i :: ·) ih

theorem rowsAt_nodup {V : Type} (t : Table Nat V) {ids : List Nat} (hn : ids.Nodup) :
    ((rowsAt t ids).map Prod.fst).Nodup := by
  have hsub : ((rowsAt t ids).map Prod.fst).Sublist ids := by
    induction ids with
    | nil => exact List.Sublist.slnil
    | cons i ids ih =>
      have ih := ih hn.of_cons
      unfold rowsAt at ih ⊢
      rw [List.filterMap_cons]
      cases t.lookup i with
      | none => exact ih.cons i
      | some v => exact ih.cons_cons i
  exact hsub.nodup hn

theorem runs_selectRows {V : Type} {tbl : Tables → Table Nat V} {wh : Tables → V → Bool}
    {order : V → Time} {limit : Nat} {k : List (Nat × V) → Program α} (hw : At p B E w)
    (h : ∀ w' xs, Later p w w' → At p B E w' → Inv env w' → (xs.map Prod.fst).Nodup →
      (∀ x ∈ xs, (tbl (schema.applyAll B (replay w'.history))).lookup x.1 = some x.2 ∧
        wh (schema.applyAll B (replay w'.history)) x.2 = true) →
      Runs env p Q (k xs) w') :
    Runs env p Q (selectRows p tbl wh order limit >>= k) w := by
  apply Safe.step_bind
  intro w₁ hr hi a r w₂ hs
  have hw₁ := hw.rely hr
  simp only at hs
  split at hs
  · rename_i ids
    split at hs
    · rename_i hpick
      cases hs
      refine ⟨hi, fun q _ => .refl q w₁, h w₁ _ hr.later hw₁ hi (rowsAt_nodup _ hpick.1) ?_⟩
      intro x hx
      obtain ⟨hid, hl⟩ := mem_rowsAt hx
      obtain ⟨v, hv, hp⟩ := (mem_keysWhere _ _ _).mp (hpick.2.1 x.1 hid)
      rw [hl] at hv
      cases hv
      rw [hw₁.view, hi.tables] at hl hp
      exact ⟨hl, hp⟩
    · cases hs
  · cases hs

theorem rely_lock {w : World} {s : Store schema Pid} {ks : List Key}
    (hs : w.store.lock p ks = some s) : Rely p w { w with store := s } := by
  obtain ⟨ht, hb, hl, -⟩ := Store.lock_eq hs
  refine ⟨⟨by rw [hb], fun k hk => ?_, fun k _ => by rw [ht]⟩, rfl, List.suffix_refl _,
    Int.le_refl _⟩
  rw [hl]
  split
  · rfl
  · exact hk

theorem inv_lock {w : World} {s : Store schema Pid} {ks : List Key} (hi : Inv env w)
    (hs : w.store.lock p ks = some s) : Inv env { w with store := s } :=
  ⟨(Store.lock_eq hs).1.trans hi.tables, hi.legal, hi.clock⟩

theorem rely_lock_other {w : World} {s : Store schema Pid} {ks : List Key}
    (hs : w.store.lock p ks = some s) {q : Pid} (hq : q ≠ p) :
    Rely q w { w with store := s } :=
  ⟨Store.lock_kept hs hq, rfl, List.suffix_refl _, Int.le_refl _⟩

theorem runs_selectRowsForUpdate {V : Type} {tbl : Tables → Table Nat V} {key : Nat → Key}
    {wh : Tables → V → Bool} {order : V → Time} {limit : Nat}
    {k : List (Nat × V) → Program α} (hw : At p B E w)
    (h : ∀ w' xs, Later p w w' → At p B E w' → Inv env w' → (xs.map Prod.fst).Nodup →
      (∀ x ∈ xs, (tbl (schema.applyAll B (replay w'.history))).lookup x.1 = some x.2 ∧
        wh (schema.applyAll B (replay w'.history)) x.2 = true ∧
        w'.store.locks (key x.1) = some p) →
      Runs env p Q (k xs) w') :
    Runs env p Q (selectRowsForUpdate p tbl key wh order limit >>= k) w := by
  apply Safe.step_bind
  intro w₁ hr hi a r w₂ hs
  have hw₁ := hw.rely hr
  simp only at hs
  split at hs
  · rename_i ids
    split at hs
    · rename_i hpick
      obtain ⟨s, hlock, heq⟩ := Option.map_eq_some_iff.mp hs
      cases heq
      have hr₂ := rely_lock hlock
      have hi₂ := inv_lock hi hlock
      refine ⟨hi₂, fun q hq => rely_lock_other hlock hq,
        h _ _ (hr.trans hr₂).later (hw₁.rely hr₂) hi₂ (rowsAt_nodup _ hpick.1) ?_⟩
      intro x hx
      obtain ⟨hid, hl⟩ := mem_rowsAt hx
      obtain ⟨v, hv, hp⟩ := (mem_keysWhere _ _ _).mp (hpick.2.1 x.1 hid)
      rw [hl] at hv
      cases hv
      rw [hw₁.view, hi.tables] at hl hp
      refine ⟨hl, (Bool.and_eq_true _ _ ▸ hp).1, ?_⟩
      rw [show _ = _ from (Store.lock_eq hlock).2.2.1 (key x.1),
        if_pos (List.mem_map.mpr ⟨x.1, hid, rfl⟩)]
    · cases hs
  · cases hs

/-! ### Writes -/

theorem later_write {w : World} {s : Store schema Pid} {wr : Write}
    (hs : w.store.write p wr = some s) : Later p w { w with store := s } := by
  obtain ⟨ht, -, hl, -⟩ := Store.write_eq hs
  refine ⟨fun k hk => ?_, fun k _ => ?_, List.suffix_refl _, Int.le_refl _⟩
  · rw [hl]
    split
    · rfl
    · exact hk
  · exact congrArg (fun t => Tables.row t k) ht

theorem at_write {w : World} {s : Store schema Pid} {wr : Write} (hw : At p B E w)
    (hs : w.store.write p wr = some s) : At p (wr :: B) E { w with store := s } := by
  obtain ⟨-, hb, -⟩ := Store.write_eq hs
  refine ⟨?_, hw.own⟩
  rw [hb, Function.update_self, hw.buf]

theorem inv_write {w : World} {s : Store schema Pid} {wr : Write} (hi : Inv env w)
    (hs : w.store.write p wr = some s) : Inv env { w with store := s } :=
  ⟨(Store.write_eq hs).1.trans hi.tables, hi.legal, hi.clock⟩

theorem rely_write_other {w : World} {s : Store schema Pid} {wr : Write}
    (hs : w.store.write p wr = some s) {q : Pid} (hq : q ≠ p) :
    Rely q w { w with store := s } :=
  ⟨Store.write_kept hs hq, rfl, List.suffix_refl _, Int.le_refl _⟩

theorem runs_write {wr : Write} {k : Unit → Program α} (hw : At p B E w)
    (h : ∀ w', Later p w w' → At p (wr :: B) E w' → Inv env w' → Runs env p Q (k ()) w') :
    Runs env p Q (write p wr >>= k) w := by
  apply Safe.step_bind
  intro w₁ hr hi a r w₂ hs
  obtain ⟨s, hwr, heq⟩ := Option.map_eq_some_iff.mp hs
  cases heq
  have hi₂ := inv_write hi hwr
  exact ⟨hi₂, fun q hq => rely_write_other hwr hq,
    h _ (hr.later.trans (later_write hwr)) (at_write (hw.rely hr) hwr) hi₂⟩

theorem inv_log_own {w : World} (hw : At p B E w) (hi : Inv env w) (ev : Event)
    (hp : ev.pid = some p) (ha : Allowed env w.history ev)
    (hev : ∀ q time ws, ev ≠ .commit q time ws) :
    Inv env (w.log ev) ∧ (∀ q, q ≠ p → Rely q w (w.log ev)) ∧ At p B (ev :: E) (w.log ev) := by
  refine ⟨hi.log ev ha hev, fun q hq => .log w ?_, hw.buf, ?_⟩
  · rw [hp]
    exact fun h => hq (Option.some.inj h).symm
  · exact (own_cons_of_pid hp _).trans (by rw [hw.own])

theorem runs_updateExecution {e : ExecId} {wh : Tables → Execution → Bool} {u : ExecUpdate}
    {k : Bool → Program α} (hw : At p B E w)
    (ht : ∀ w' r, Later p w w' → At p (.updateExecution e u :: B) E w' → Inv env w' →
      (schema.applyAll B (replay w'.history)).execution e = some r →
      wh (schema.applyAll B (replay w'.history)) r = true → Runs env p Q (k true) w')
    (hf : ∀ w', Later p w w' → At p B E w' → Inv env w' →
      (∀ r, (schema.applyAll B (replay w'.history)).execution e = some r →
        wh (schema.applyAll B (replay w'.history)) r = false) →
      Allowed env w'.history (.unmatched p e u) ∧ ∀ w'', At p B (.unmatched p e u :: E) w'' →
        Inv env w'' → w'.history <:+ w''.history → Runs env p Q (k false) w'') :
    Runs env p Q (updateExecution p e wh u >>= k) w := by
  apply Safe.step_bind
  intro w₁ hr hi a r w₂ hs
  have hw₁ := hw.rely hr
  have hview : w₁.view p = schema.applyAll B (replay w₁.history) := by rw [hw₁.view, hi.tables]
  simp only [hview] at hs
  have hnone : (∀ r, (schema.applyAll B (replay w₁.history)).execution e = some r →
      wh (schema.applyAll B (replay w₁.history)) r = false) →
      some (false, w₁.log (.unmatched p e u)) = some (r, w₂) →
      Inv env w₂ ∧ (∀ q, q ≠ p → Rely q w₁ w₂) ∧ Runs env p Q (k r) w₂ := by
    intro hno heq
    cases heq
    obtain ⟨ha, hk⟩ := hf w₁ hr.later hw₁ hi hno
    obtain ⟨hi₂, hr₂, hw₂⟩ := inv_log_own hw₁ hi (.unmatched p e u) rfl ha (by simp)
    exact ⟨hi₂, hr₂, hk _ hw₂ hi₂ (List.suffix_cons _ _)⟩
  split at hs
  · rename_i row hrow
    split at hs
    · rename_i hwh
      obtain ⟨s, hwr, heq⟩ := Option.map_eq_some_iff.mp hs
      cases heq
      have hi₂ := inv_write hi hwr
      exact ⟨hi₂, fun q hq => rely_write_other hwr hq,
        ht _ row (hr.later.trans (later_write hwr)) (at_write hw₁ hwr) hi₂ hrow hwh⟩
    · rename_i hwh
      refine hnone (fun r' hr' => ?_) hs
      rw [hrow] at hr'
      cases hr'
      simpa using hwh
  · rename_i hrow
    exact hnone (fun r' hr' => by rw [hrow] at hr'; cases hr') hs

/-- An UPDATE by id of a row that exists. -/
theorem runs_updateExecutionById {e : ExecId} {u : ExecUpdate} {k : Bool → Program α}
    (hw : At p B E w) (he : ∃ r, (replay w.history).execution e = some r)
    (h : ∀ w' r, Later p w w' → At p (.updateExecution e u :: B) E w' → Inv env w' →
      (schema.applyAll B (replay w'.history)).execution e = some r → Runs env p Q (k true) w') :
    Runs env p Q (updateExecutionById p e u >>= k) w := by
  refine runs_updateExecution hw (fun w' r hl ha hi hr _ => h w' r hl ha hi hr) ?_
  intro w' hl ha hi hno
  obtain ⟨r, hr⟩ := he
  obtain ⟨r', hr', -⟩ := (hl.grows.trans (.applyAll B _)).execution hr
  exact absurd (hno r' hr') (by simp)

theorem runs_insertExecution {row : Execution} {k : Option ExecId → Program α}
    (hw : At p B E w)
    (hconflict : ∀ w', Later p w w' → At p B E w' → Inv env w' →
      (schema.applyAll B (replay w'.history)).SlotTaken row.cueId row.scheduledFor →
      Runs env p Q (k none) w')
    (hnew : ∀ w' e, Later p w w' → At p (.insertExecution e row :: B) E w' → Inv env w' →
      (schema.applyAll B (replay w'.history)).execution e = none →
      ¬ (schema.applyAll B (replay w'.history)).SlotTaken row.cueId row.scheduledFor →
      Runs env p Q (k (some e)) w') :
    Runs env p Q (insertExecution p row >>= k) w := by
  apply Safe.step_bind
  intro w₁ hr hi a r w₂ hs
  have hw₁ := hw.rely hr
  have hview : w₁.view p = schema.applyAll B (replay w₁.history) := by rw [hw₁.view, hi.tables]
  simp only [hview] at hs
  split at hs
  · rename_i e
    split at hs
    · rename_i hfree
      split at hs
      · rename_i hslot
        cases hs
        refine ⟨hi, fun q _ => .refl q w₁, hconflict w₁ hr.later hw₁ hi ?_⟩
        obtain ⟨e', he'⟩ := List.exists_mem_of_ne_nil _ hslot
        obtain ⟨row', hl, hb⟩ := (mem_keysWhere _ _ _).mp he'
        simp only [decide_eq_true_eq] at hb
        exact ⟨e', row', hl, hb.1, hb.2⟩
      · rename_i hslot
        obtain ⟨s, hwr, heq⟩ := Option.map_eq_some_iff.mp hs
        cases heq
        have hi₂ := inv_write hi hwr
        refine ⟨hi₂, fun q hq => rely_write_other hwr hq,
          hnew _ e (hr.later.trans (later_write hwr)) (at_write hw₁ hwr) hi₂ hfree.1 ?_⟩
        rintro ⟨e', row', hl, hc, hsf⟩
        refine hslot (List.ne_nil_of_mem ((mem_keysWhere _ _ e').mpr ⟨row', hl, ?_⟩))
        simp [hc, hsf]
    · cases hs
  · cases hs

theorem runs_insertOutbox {row : OutboxRow} {k : Unit → Program α} (hw : At p B E w)
    (h : ∀ w' n, Later p w w' → At p (.insertOutbox n row :: B) E w' → Inv env w' →
      (schema.applyAll B (replay w'.history)).outboxRow n = none → Runs env p Q (k ()) w') :
    Runs env p Q (insertOutbox p row >>= k) w := by
  apply Safe.step_bind
  intro w₁ hr hi a r w₂ hs
  have hw₁ := hw.rely hr
  have hview : w₁.view p = schema.applyAll B (replay w₁.history) := by rw [hw₁.view, hi.tables]
  simp only [hview] at hs
  split at hs
  · rename_i n
    split at hs
    · rename_i hnone
      obtain ⟨s, hwr, heq⟩ := Option.map_eq_some_iff.mp hs
      cases heq
      have hi₂ := inv_write hi hwr
      exact ⟨hi₂, fun q hq => rely_write_other hwr hq,
        h _ n (hr.later.trans (later_write hwr)) (at_write hw₁ hwr) hi₂ hnone⟩
    · cases hs
  · cases hs

theorem runs_insertCue {row : Cue} {k : Option CueId → Program α} (hw : At p B E w)
    (hconflict : ∀ w', Later p w w' → At p B E w' → Inv env w' → Runs env p Q (k none) w')
    (hnew : ∀ w' c, Later p w w' → At p (.insertCue c row :: B) E w' → Inv env w' →
      (schema.applyAll B (replay w'.history)).cue c = none →
      ¬ (schema.applyAll B (replay w'.history)).NameTaken row.userId row.name →
      Runs env p Q (k (some c)) w') :
    Runs env p Q (insertCue p row >>= k) w := by
  apply Safe.step_bind
  intro w₁ hr hi a r w₂ hs
  have hw₁ := hw.rely hr
  have hview : w₁.view p = schema.applyAll B (replay w₁.history) := by rw [hw₁.view, hi.tables]
  simp only [hview] at hs
  split at hs
  · rename_i c
    split at hs
    · rename_i hfree
      split at hs
      · cases hs
        exact ⟨hi, fun q _ => .refl q w₁, hconflict w₁ hr.later hw₁ hi⟩
      · rename_i hname
        obtain ⟨s, hwr, heq⟩ := Option.map_eq_some_iff.mp hs
        cases heq
        have hi₂ := inv_write hi hwr
        refine ⟨hi₂, fun q hq => rely_write_other hwr hq,
          hnew _ c (hr.later.trans (later_write hwr)) (at_write hw₁ hwr) hi₂ hfree.1 ?_⟩
        rintro ⟨c', row', hl, hu, hn⟩
        refine hname (List.ne_nil_of_mem ((mem_keysWhere _ _ c').mpr ⟨row', hl, ?_⟩))
        simp [hu, hn]
    · cases hs
  · cases hs

/-! ### Events -/

theorem runs_commit {k : Unit → Program α} (hw : At p B E w)
    (h : ∀ w', Later p w w' → At p B E w' → Inv env w' →
      (∃ call, callOf p E = some call ∧ Commits env w'.history p w'.clock call B) ∧
      ∀ w'', At p [] (.commit p w'.clock B :: E) w'' → Inv env w'' →
        w'.history <:+ w''.history → Runs env p Q (k ()) w'') :
    Runs env p Q (commit p >>= k) w := by
  apply Safe.step_bind
  intro w₁ hr hi a r w₂ hs
  have hw₁ := hw.rely hr
  cases hs
  obtain ⟨⟨call, hcall, hc⟩, hk⟩ := h w₁ hr.later hw₁ hi
  have hi₂ : Inv env { w₁ with
      store := w₁.store.commit p
      history := .commit p w₁.clock (w₁.store.buf p) :: w₁.history } := by
    refine ⟨?_, ⟨⟨⟨call, ?_, ?_⟩, fun q t us hm => hi.clock q t us hm⟩, hi.legal⟩, ?_⟩
    · change w₁.view p = schema.applyAll (w₁.store.buf p) (replay w₁.history)
      rw [hw₁.view, hw₁.buf, hi.tables]
    · rw [hw₁.callOf_eq, hcall]
    · rw [hw₁.buf]
      exact hc
    · intro q t us hm
      rcases List.mem_cons.mp hm with heq | hm
      · cases heq
        exact Int.le_refl _
      · exact hi.clock q t us hm
  refine ⟨hi₂, fun q hq => ⟨Store.commit_kept w₁.store hq, own_cons_of_ne ?_ _,
    List.suffix_cons _ _, Int.le_refl _⟩, hk _ ⟨?_, ?_⟩ hi₂ (List.suffix_cons _ _)⟩
  · exact fun h => hq (Option.some.inj h).symm
  · exact Function.update_self p _ _
  · change own p (.commit p w₁.clock (w₁.store.buf p) :: w₁.history) = _
    rw [own_cons_of_pid rfl, hw₁.own, hw₁.buf]

theorem runs_fetchAttempts {e : ExecId} {k : Nat → Program α} (hw : At p B E w)
    (h : ∀ w', Later p w w' → At p B E w' → Inv env w' → ∀ n,
      n = (((schema.applyAll B (replay w'.history)).execution e).map Execution.attempts).getD 0 →
      Allowed env w'.history (.attempted p e n) ∧ ∀ w'', At p B (.attempted p e n :: E) w'' →
        Inv env w'' → w'.history <:+ w''.history → Runs env p Q (k n) w'') :
    Runs env p Q (fetchAttempts p e >>= k) w := by
  apply Safe.step_bind
  intro w₁ hr hi a r w₂ hs
  have hw₁ := hw.rely hr
  have hview : w₁.view p = schema.applyAll B (replay w₁.history) := by rw [hw₁.view, hi.tables]
  simp only [hview] at hs
  cases hs
  obtain ⟨ha, hk⟩ := h w₁ hr.later hw₁ hi _ rfl
  obtain ⟨hi₂, hr₂, hw₂⟩ := inv_log_own hw₁ hi _ rfl ha (by simp)
  exact ⟨hi₂, hr₂, hk _ hw₂ hi₂ (List.suffix_cons _ _)⟩

theorem runs_deliverWebhook {e : ExecId} {attempt : Nat} {k : DeliveryResult → Program α}
    (hw : At p B E w)
    (h : ∀ w' sent, Later p w w' → At p B E w' → Inv env w' →
      Allowed env w'.history (.posted p e attempt sent) ∧
      ∀ w'' result, At p B (.posted p e attempt sent :: E) w'' → Inv env w'' →
        w'.history <:+ w''.history → Runs env p Q (k result) w'') :
    Runs env p Q (deliverWebhook p e attempt >>= k) w := by
  apply Safe.step_bind
  intro w₁ hr hi a r w₂ hs
  have hw₁ := hw.rely hr
  have hpost : ∀ sent, w₂ = w₁.log (.posted p e attempt sent) →
      Inv env w₂ ∧ (∀ q, q ≠ p → Rely q w₁ w₂) ∧ Runs env p Q (k r) w₂ := by
    rintro sent rfl
    obtain ⟨ha, hk⟩ := h w₁ sent hr.later hw₁ hi
    obtain ⟨hi₂, hr₂, hw₂⟩ := inv_log_own hw₁ hi _ rfl ha (by simp)
    exact ⟨hi₂, hr₂, hk _ r hw₂ hi₂ (List.suffix_cons _ _)⟩
  split at hs
  · cases hs
    exact hpost false rfl
  · cases hs
    exact hpost true rfl
  · cases hs

theorem runs_enqueueJob {n : OutboxId} {j : Job} {k : Option String → Program α}
    (hw : At p B E w)
    (hok : ∀ w', Later p w w' → At p B E w' → Inv env w' →
      Allowed env w'.history (.enqueued p n j) ∧ ∀ w'', At p B (.enqueued p n j :: E) w'' →
        Inv env w'' → Later p w w'' → Runs env p Q (k none) w'')
    (herror : ∀ w' error, Later p w w' → At p B E w' → Inv env w' →
      Runs env p Q (k (some error)) w') :
    Runs env p Q (enqueueJob p n j >>= k) w := by
  apply Safe.step_bind
  intro w₁ hr hi a r w₂ hs
  have hw₁ := hw.rely hr
  split at hs
  · cases hs
    obtain ⟨ha, hk⟩ := hok w₁ hr.later hw₁ hi
    obtain ⟨hi₂, hr₂, hw₂⟩ := inv_log_own hw₁ hi (.enqueued p n j) rfl ha (by simp)
    refine ⟨hi₂, hr₂, hk _ hw₂ hi₂ (hr.later.trans ?_)⟩
    exact ⟨fun _ h => h, fun _ _ => rfl, List.suffix_cons _ _, Int.le_refl _⟩
  · cases hs
    exact ⟨hi, fun q _ => .refl q w₁, herror w₁ _ hr.later hw₁ hi⟩
  · cases hs

theorem runs_checkExecutionLimit {k : Bool → Program α} (hw : At p B E w)
    (h : ∀ w' b, Later p w w' → At p B E w' → Inv env w' → Runs env p Q (k b) w') :
    Runs env p Q (checkExecutionLimit >>= k) w := by
  apply Safe.step_bind
  intro w₁ hr hi a r w₂ hs
  split at hs
  · cases hs
    exact ⟨hi, fun q _ => .refl q w₁, h w₁ _ hr.later (hw.rely hr) hi⟩
  · cases hs

theorem runs_buildIpcDeliveryMetadata {k : Option Json → Program α} (hw : At p B E w)
    (h : ∀ w' m, Later p w w' → At p B E w' → Inv env w' → Runs env p Q (k m) w') :
    Runs env p Q (buildIpcDeliveryMetadata >>= k) w := by
  apply Safe.step_bind
  intro w₁ hr hi a r w₂ hs
  split at hs
  · cases hs
    exact ⟨hi, fun q _ => .refl q w₁, h w₁ _ hr.later (hw.rely hr) hi⟩
  · cases hs
    exact ⟨hi, fun q _ => .refl q w₁, h w₁ _ hr.later (hw.rely hr) hi⟩
  · cases hs

theorem runs_selectForOutcome {user : UserId} {e : ExecId}
    {k : Option (Execution × Cue) → Program α} (hw : At p [] E w)
    (hnone : ∀ w', Later p w w' → At p [] E w' → Inv env w' → Runs env p Q (k none) w')
    (hsome : ∀ w' r cue, Later p w w' → At p [] E w' → Inv env w' →
      (replay w'.history).execution e = some r → (replay w'.history).cue r.cueId = some cue →
      w'.store.locks (.execution e) = some p → Runs env p Q (k (some (r, cue))) w') :
    Runs env p Q (selectForOutcome p user e >>= k) w := by
  apply Safe.step_bind
  intro w₁ hr hi a r w₂ hs
  have hw₁ := hw.rely hr
  have hview : w₁.view p = replay w₁.history := by rw [hw₁.view, hi.tables]; rfl
  simp only [hview] at hs
  split at hs
  · cases hs
    exact ⟨hi, fun q _ => .refl q w₁, hnone w₁ hr.later hw₁ hi⟩
  · rename_i row hrow
    obtain ⟨s, hlock, heq⟩ := Option.map_eq_some_iff.mp hs
    cases heq
    have hr₂ := rely_lock hlock
    have hi₂ := inv_lock hi hlock
    obtain ⟨r, hex, hrow⟩ := Option.bind_eq_some_iff.mp hrow
    obtain ⟨cue, hcue, rfl⟩ := Option.map_eq_some_iff.mp hrow
    refine ⟨hi₂, fun q hq => rely_lock_other hlock hq,
      hsome _ r cue (hr.trans hr₂).later (hw₁.rely hr₂) hi₂ hex
        (Option.filter_eq_some_iff.mp hcue).1 ?_⟩
    exact ((Store.lock_eq hlock).2.2.1 _).trans (if_pos (by simp))

end Rules

end CueApi.Scheduler
