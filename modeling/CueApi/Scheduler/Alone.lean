import Mathlib.Data.Fintype.EquivFin
import CueApi.Library.Solo
import CueApi.Scheduler.Statements

/-! The rule of each statement for a process that runs alone: every lock is free,
so no statement waits, and the tables change only at its own commits. -/

namespace CueApi.Scheduler

open ReadCommitted Interleaving Prog

/-- `p` is alone with the open writes `B`, newest first, on the committed tables `t`. -/
structure Alone (p : Pid) (B : List Write) (t : Tables) (now : Time) (h : History)
    (w : World) : Prop where
  free : ∀ k, w.store.Free p k
  buf : w.store.buf p = B
  tables : w.tables = t
  clock : w.clock = now
  history : w.history = h

/-- Every session closed: what was open is rolled back. -/
def World.closed (w : World) : World := { w with store := Store.start schema Pid w.tables }

theorem alone_closed (p : Pid) (w : World) :
    Alone p [] w.tables w.clock w.history w.closed :=
  ⟨fun _ => .inl rfl, rfl, rfl, rfl, rfl⟩

section Rules

variable {p : Pid} {B : List Write} {t : Tables} {now : Time} {h : History} {w : World}
variable {α : Type} {E : Prop} {Q : α → World → Prop}

theorem Alone.view (hw : Alone p B t now h w) : w.view p = schema.applyAll B t := by
  unfold World.view Store.view
  rw [hw.buf]
  exact congrArg _ hw.tables

theorem Alone.log (hw : Alone p B t now h w) (ev : Event) :
    Alone p B t now (ev :: h) (w.log ev) :=
  ⟨hw.free, hw.buf, hw.tables, hw.clock, congrArg _ hw.history⟩

theorem Alone.write (hw : Alone p B t now h w) (wr : Write) :
    ∃ s, w.store.write p wr = some s ∧ Alone p (wr :: B) t now h { w with store := s } := by
  have hall : ∀ k ∈ schema.keys wr, w.store.Free p k := fun k _ => hw.free k
  obtain ⟨s, hs⟩ : ∃ s, w.store.write p wr = some s := by
    unfold Store.write
    rw [dif_pos hall]
    exact ⟨_, rfl⟩
  obtain ⟨ht, hb, hl, -⟩ := Store.write_eq hs
  refine ⟨s, hs, fun k => ?_, ?_, ht.trans hw.tables, hw.clock, hw.history⟩
  · simp only [Store.Free, hl]
    split
    · exact .inr rfl
    · exact hw.free k
  · rw [hb, Function.update_self, hw.buf]

theorem Alone.lock (hw : Alone p B t now h w) (ks : List Key) :
    ∃ s, w.store.lock p ks = some s ∧ Alone p B t now h { w with store := s } := by
  have hall : ∀ k ∈ ks, w.store.Free p k := fun k _ => hw.free k
  obtain ⟨s, hs⟩ : ∃ s, w.store.lock p ks = some s := by
    unfold Store.lock
    rw [dif_pos hall]
    exact ⟨_, rfl⟩
  obtain ⟨ht, hb, hl, -⟩ := Store.lock_eq hs
  refine ⟨s, hs, fun k => ?_, by rw [hb]; exact hw.buf, ht.trans hw.tables, hw.clock, hw.history⟩
  simp only [Store.Free, hl]
  split
  · exact .inr rfl
  · exact hw.free k

/-- A step that any answer takes the same way. -/
theorem surely_det {act : World → Answer → Option (α × World)} {β : Type} {Q : β → World → Prop}
    {k : α → Program β} {a : α} {w w' : World} (ha : ∀ i, act w i = some (a, w'))
    (hk : Surely E Q (k a) w') : Surely E Q (Prog.step act >>= k) w := by
  refine ⟨⟨.go, by simp [ha]⟩, fun i r s hs => ?_⟩
  rw [ha] at hs
  cases hs
  exact hk

theorem surely_clock {k : Time → Program α} (hw : Alone p B t now h w)
    (hk : Surely E Q (k now) w) : Surely E Q (clock >>= k) w :=
  surely_det (fun _ => by rw [hw.clock]) hk

/-- What is sure after the clock was read is sure. -/
theorem sure_of_clock {k : Time → Program α} (hs : Surely E Q (clock >>= k) w) :
    Surely E Q (k w.clock) w := hs.2 .go _ _ rfl

theorem sure_of_select {β : Type} {q : Tables → β} {k : β → Program α}
    (hs : Surely E Q (select p q >>= k) w) : Surely E Q (k (q (w.view p))) w := hs.2 .go _ _ rfl

theorem surely_select {β : Type} {q : Tables → β} {k : β → Program α}
    (hw : Alone p B t now h w) (hk : Surely E Q (k (q (schema.applyAll B t))) w) :
    Surely E Q (select p q >>= k) w :=
  surely_det (fun _ => by rw [hw.view]) hk

theorem surely_write {wr : Write} {k : Unit → Program α} (hw : Alone p B t now h w)
    (hk : ∀ w', Alone p (wr :: B) t now h w' → Surely E Q (k ()) w') :
    Surely E Q (Scheduler.write p wr >>= k) w := by
  obtain ⟨s, hs, hw'⟩ := hw.write wr
  exact surely_det (fun _ => by rw [hs]; rfl) (hk _ hw')

theorem surely_commit {k : Unit → Program α} (hw : Alone p B t now h w)
    (hk : ∀ w', Alone p [] (schema.applyAll B t) now (.commit p now B :: h) w' →
      Surely E Q (k ()) w') : Surely E Q (commit p >>= k) w := by
  refine surely_det (fun _ => rfl) (hk _ ⟨fun k => ?_, ?_, ?_, hw.clock, ?_⟩)
  · rcases hw.free k with hf | hf <;> simp [Store.Free, Store.commit, hf]
  · exact Function.update_self p _ _
  · exact hw.view
  · simp only [hw.clock, hw.buf, hw.history]

theorem surely_updateExecution {e : ExecId} {wh : Tables → Execution → Bool} {u : ExecUpdate}
    {k : Bool → Program α} (hw : Alone p B t now h w)
    (hmatch : ∀ w' r, (schema.applyAll B t).execution e = some r →
      wh (schema.applyAll B t) r = true → Alone p (.updateExecution e u :: B) t now h w' →
      Surely E Q (k true) w')
    (hno : ∀ w', (∀ r, (schema.applyAll B t).execution e = some r →
      wh (schema.applyAll B t) r = false) → Alone p B t now (.unmatched p e u :: h) w' →
      Surely E Q (k false) w') :
    Surely E Q (updateExecution p e wh u >>= k) w := by
  cases hr : (schema.applyAll B t).execution e with
  | none =>
    refine surely_det (fun _ => ?_) (hno _ (fun r h => ?_) (hw.log (.unmatched p e u)))
    · simp only [hw.view, hr]
    · rw [hr] at h
      cases h
  | some r =>
    cases hwh : wh (schema.applyAll B t) r with
    | true =>
      obtain ⟨s, hs, hw'⟩ := hw.write (.updateExecution e u)
      refine surely_det (fun _ => ?_) (hmatch _ r hr hwh hw')
      simp only [hw.view, hr, hwh, hs, if_true, Option.map_some]
    | false =>
      refine surely_det (fun _ => ?_) (hno _ (fun r' h => ?_) (hw.log (.unmatched p e u)))
      · simp [hw.view, hr, hwh]
      · rw [hr] at h
        cases h
        exact hwh

theorem surely_updateExecutionById {e : ExecId} {u : ExecUpdate} {k : Bool → Program α}
    (hw : Alone p B t now h w)
    (hmatch : ∀ w' r, (schema.applyAll B t).execution e = some r →
      Alone p (.updateExecution e u :: B) t now h w' → Surely E Q (k true) w')
    (hno : ∀ w', (schema.applyAll B t).execution e = none →
      Alone p B t now (.unmatched p e u :: h) w' → Surely E Q (k false) w') :
    Surely E Q (updateExecutionById p e u >>= k) w := by
  refine surely_updateExecution hw (fun w' r hr _ => hmatch w' r hr) fun w' hall => hno w' ?_
  cases hr : (schema.applyAll B t).execution e with
  | none => rfl
  | some r => cases hall r hr

end Rules

/-! ## Rows and generated keys -/

section Keys

variable {K V : Type}

theorem exists_fresh (tbl : Table Nat V) : ∃ n, tbl.lookup n = none := by
  obtain ⟨n, hn⟩ := Infinite.exists_notMem_finset tbl.keys.toFinset
  exact ⟨n, AList.lookup_eq_none.mpr fun hm => hn (List.mem_toFinset.mpr hm)⟩

/-- Some rows answer a query with a LIMIT. -/
theorem picks_exists (limit : Nat) (order : Nat → Time) {all : List Nat} (hn : all.Nodup) :
    ∃ ids, Picks limit order all ids := by
  let le : Nat → Nat → Bool := fun i j => decide (order i ≤ order j)
  have hperm := List.mergeSort_perm all le
  have hsort : (all.mergeSort le).Pairwise fun i j => order i ≤ order j := by
    refine (List.pairwise_mergeSort (fun a b c hab hbc => ?_) (fun a b => ?_) all).imp
      fun hab => of_decide_eq_true hab
    · exact decide_eq_true (Int.le_trans (of_decide_eq_true hab) (of_decide_eq_true hbc))
    · rcases Int.le_total (order a) (order b) with hab | hba
      · simp [hab]
      · simp [hba]
  have htake := List.take_append_drop limit (all.mergeSort le)
  refine ⟨(all.mergeSort le).take limit, ?_, fun i hi => ?_, ?_, ?_, fun i hi j hj hni => ?_⟩
  · exact (hperm.nodup_iff.mpr hn).sublist (List.take_sublist _ _)
  · exact hperm.mem_iff.mp (List.mem_of_mem_take hi)
  · rw [List.length_take, hperm.length_eq]
  · exact hsort.sublist (List.take_sublist _ _)
  · rw [← htake, List.pairwise_append] at hsort
    refine hsort.2.2 i hi j ?_
    have hj' := hperm.mem_iff.mpr hj
    rw [← htake, List.mem_append] at hj'
    exact hj'.resolve_left hni

/-- Without an order, any row can be among them. -/
theorem picks_containing (limit : Nat) (hl : 0 < limit) {all : List Nat} (hn : all.Nodup)
    {i : Nat} (hi : i ∈ all) : ∃ ids, Picks limit (fun _ => 0) all ids ∧ i ∈ ids := by
  refine ⟨i :: (all.erase i).take (limit - 1), ⟨?_, fun j hj => ?_, ?_, ?_, ?_⟩, by simp⟩
  · refine List.nodup_cons.mpr ⟨fun hm => ?_, (hn.erase i).sublist (List.take_sublist _ _)⟩
    exact absurd (List.mem_of_mem_take hm) (fun hm => (List.Nodup.mem_erase_iff hn).mp hm |>.1 rfl)
  · rcases List.mem_cons.mp hj with rfl | hj
    · exact hi
    · exact List.mem_of_mem_erase (List.mem_of_mem_take hj)
  · have hpos := List.length_pos_of_mem hi
    simp only [List.length_cons, List.length_take, List.length_erase_of_mem hi]
    omega
  · exact List.pairwise_of_forall fun _ _ => Int.le_refl _
  · exact fun _ _ _ _ _ => Int.le_refl _

end Keys

section Reads

variable {p : Pid} {B : List Write} {t : Tables} {now : Time} {h : History} {w : World}
variable {α V : Type} {E : Prop} {Q : α → World → Prop} {tbl : Tables → Table Nat V} {key : Nat → Key}
variable {wh : Tables → V → Bool} {order : V → Time} {limit : Nat}

/-- The rows a query of `p` sees. -/
def rowsWhere (t : Tables) (tbl : Tables → Table Nat V) (wh : Tables → V → Bool) : List Nat :=
  keysWhere (tbl t) fun _ v => wh t v

/-- A SELECT can return any rows that answer it. -/
theorem sure_of_selectRowsForUpdate (hw : Alone p B t now h w) {ids : List Nat}
    (hp : Picks limit (orderBy (tbl (schema.applyAll B t)) order)
      (rowsWhere (schema.applyAll B t) tbl wh) ids) {k : List (Nat × V) → Program α}
    (hs : Surely E Q (selectRowsForUpdate p tbl key wh order limit >>= k) w) :
    ∃ w', Alone p B t now h w' ∧ Surely E Q (k (rowsAt (tbl (schema.applyAll B t)) ids)) w' := by
  obtain ⟨s, hlock, hw'⟩ := hw.lock (ids.map key)
  refine ⟨_, hw', hs.2 (.rows ids) _ _ ?_⟩
  have hfree : ∀ i, decide (w.store.Free p (key i)) = true := fun i => decide_eq_true (hw.free _)
  simp only [hw.view, hfree, Bool.and_true, hlock, Option.map_some]
  exact if_pos hp

theorem surely_selectRowsForUpdate {k : List (Nat × V) → Program α} (hw : Alone p B t now h w)
    (hk : ∀ w' ids, Alone p B t now h w' →
      Picks limit (orderBy (tbl (schema.applyAll B t)) order)
        (rowsWhere (schema.applyAll B t) tbl wh) ids →
      Surely E Q (k (rowsAt (tbl (schema.applyAll B t)) ids)) w') :
    Surely E Q (selectRowsForUpdate p tbl key wh order limit >>= k) w := by
  have hfree : ∀ i, decide (w.store.Free p (key i)) = true := fun i => decide_eq_true (hw.free _)
  obtain ⟨ids, hids⟩ := picks_exists limit (orderBy (tbl (schema.applyAll B t)) order)
    (keysWhere_nodup (tbl (schema.applyAll B t)) fun _ v => wh (schema.applyAll B t) v)
  refine ⟨⟨.rows ids, ?_⟩, fun i r s hs => ?_⟩
  · obtain ⟨s, hlock, -⟩ := hw.lock (ids.map key)
    simp only [hw.view, hfree, Bool.and_true, hlock, Option.map_some]
    rw [if_pos hids]
    rfl
  · simp only [hw.view, hfree, Bool.and_true] at hs
    split at hs
    · rename_i ids'
      split at hs
      · rename_i hpick
        obtain ⟨s', hlock, hw'⟩ := hw.lock (ids'.map key)
        rw [hlock] at hs
        cases hs
        exact hk _ ids' hw' hpick
      · cases hs
    · cases hs

theorem surely_insertExecution {row : Execution} {k : Option ExecId → Program α}
    (hw : Alone p B t now h w)
    (htaken : (schema.applyAll B t).SlotTaken row.cueId row.scheduledFor → Surely E Q (k none) w)
    (hnew : ∀ w' e, ¬ (schema.applyAll B t).SlotTaken row.cueId row.scheduledFor →
      (schema.applyAll B t).execution e = none →
      Alone p (.insertExecution e row :: B) t now h w' → Surely E Q (k (some e)) w') :
    Surely E Q (insertExecution p row >>= k) w := by
  obtain ⟨e₀, he₀⟩ := exists_fresh (schema.applyAll B t).executions
  have hslot : keysWhere (schema.applyAll B t).executions
      (fun _ r => r.cueId = row.cueId ∧ r.scheduledFor = row.scheduledFor) ≠ [] ↔
      (schema.applyAll B t).SlotTaken row.cueId row.scheduledFor := by
    constructor
    · intro hne
      obtain ⟨e, he⟩ := List.exists_mem_of_ne_nil _ hne
      obtain ⟨row', hl, hb⟩ := (mem_keysWhere _ _ _).mp he
      exact ⟨e, row', hl, of_decide_eq_true hb⟩
    · rintro ⟨e, row', hl, hb⟩
      exact List.ne_nil_of_mem ((mem_keysWhere _ _ e).mpr ⟨row', hl, decide_eq_true hb⟩)
  refine ⟨⟨.fresh e₀, ?_⟩, fun i r s hs => ?_⟩
  · obtain ⟨s, hs, -⟩ := hw.write (.insertExecution e₀ row)
    have he₀' : (schema.applyAll B t).execution e₀ = none := he₀
    simp only [hw.view, he₀', hw.free, hs, and_self, if_true, Option.map_some]
    split <;> rfl
  · simp only [hw.view] at hs
    split at hs
    · rename_i e
      split at hs
      · rename_i hfree
        split at hs
        · rename_i htk
          cases hs
          exact htaken (hslot.mp htk)
        · rename_i htk
          obtain ⟨s', hs', hw'⟩ := hw.write (.insertExecution e row)
          rw [hs'] at hs
          cases hs
          exact hnew _ e (fun hst => htk (hslot.mpr hst)) hfree.1 hw'
      · cases hs
    · cases hs

theorem surely_insertOutbox {row : OutboxRow} {k : Unit → Program α} (hw : Alone p B t now h w)
    (hk : ∀ w' n, (schema.applyAll B t).outboxRow n = none →
      Alone p (.insertOutbox n row :: B) t now h w' → Surely E Q (k ()) w') :
    Surely E Q (insertOutbox p row >>= k) w := by
  obtain ⟨n₀, hn₀⟩ := exists_fresh (schema.applyAll B t).outbox
  refine ⟨⟨.fresh n₀, ?_⟩, fun i r s hs => ?_⟩
  · obtain ⟨s, hs, -⟩ := hw.write (.insertOutbox n₀ row)
    have hn₀' : (schema.applyAll B t).outboxRow n₀ = none := hn₀
    simp only [hw.view, hn₀', hs, if_true, Option.map_some, Option.isSome_some]
  · simp only [hw.view] at hs
    split at hs
    · rename_i n
      split at hs
      · rename_i hnone
        obtain ⟨s', hs', hw'⟩ := hw.write (.insertOutbox n row)
        rw [hs'] at hs
        cases hs
        exact hk _ n hnone hw'
      · cases hs
    · cases hs

end Reads

end CueApi.Scheduler
