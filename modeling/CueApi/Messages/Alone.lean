import CueApi.Library.Solo
import CueApi.Messages.World
import CueApi.Scheduler.Alone

/-! The rule of each statement of messaging for a process that runs alone: every lock is free, so no
statement waits, and the tables change only at its own commits. -/

namespace CueApi.Messages

open Scheduler (Pid Time keysWhere mem_keysWhere exists_fresh)
open Interleaving ReadCommitted Prog

/-- `p` is alone with the open writes `B`, newest first, on the committed tables `t`. -/
structure MsgAlone (p : Pid) (B : List MsgWrite) (t : MsgTables) (now : Time) (w : MsgWorld) :
    Prop where
  free : ∀ k, w.store.Free p k
  buf : w.store.buf p = B
  tables : w.tables = t
  clock : w.clock = now

section Rules

variable {p : Pid} {B : List MsgWrite} {t : MsgTables} {now : Time} {w : MsgWorld} {α : Type}
variable {E : Prop} {Q : α → MsgWorld → Prop}

theorem MsgAlone.view (hw : MsgAlone p B t now w) : w.view p = msgSchema.applyAll B t := by
  unfold Recorded.World.view Store.view
  rw [hw.buf]
  exact congrArg _ hw.tables

theorem MsgAlone.write (hw : MsgAlone p B t now w) (wr : MsgWrite) :
    ∃ s, w.store.write p wr = some s ∧ MsgAlone p (wr :: B) t now { w with store := s } := by
  obtain ⟨s, hs⟩ : ∃ s, w.store.write p wr = some s := by
    unfold Store.write
    rw [dif_pos fun k _ => hw.free k]
    exact ⟨_, rfl⟩
  obtain ⟨ht, hb, hl, -⟩ := Store.write_eq hs
  refine ⟨s, hs, fun k => ?_, ?_, ht.trans hw.tables, hw.clock⟩
  · simp only [Store.Free, hl]
    split
    · exact .inr rfl
    · exact hw.free k
  · rw [hb, Function.update_self, hw.buf]

/-- A step that any answer takes the same way. -/
theorem surely_same {β : Type} {act : MsgWorld → MsgAnswer → Option (β × MsgWorld)}
    {k : β → MsgProgram α} {b : β} {w' : MsgWorld} (hb : ∀ i, act w i = some (b, w')) :
    Surely E Q (Prog.step act >>= k) w ↔ Surely E Q (k b) w' := by
  constructor
  · intro h
    exact h.2 .go b w' (hb .go)
  · intro h
    refine ⟨⟨.go, by simp [hb]⟩, fun i r s hs => ?_⟩
    rw [hb] at hs
    cases hs
    exact h

theorem surely_clock {k : Time → MsgProgram α} :
    Surely E Q (clock >>= k) w ↔ Surely E Q (k w.clock) w :=
  surely_same fun _ => rfl

theorem surely_commit {k : Unit → MsgProgram α} (hw : MsgAlone p B t now w)
    (hk : ∀ w', MsgAlone p [] (msgSchema.applyAll B t) now w' → Surely E Q (k ()) w') :
    Surely E Q (commit p >>= k) w := by
  have hstep : Surely E Q (commit p >>= k) w ↔ Surely E Q (k ()) (w.commit p) :=
    surely_same fun _ => rfl
  refine hstep.mpr (hk _ ⟨fun k => ?_, ?_, ?_, hw.clock⟩)
  · rcases hw.free k with hf | hf <;> simp [Store.Free, Recorded.World.commit, Store.commit, hf]
  · exact Function.update_self p _ _
  · exact hw.view

theorem surely_insertOutbox {row : MsgOutboxRow} {k : Unit → MsgProgram α}
    (hw : MsgAlone p B t now w)
    (hk : ∀ w' n, (msgSchema.applyAll B t).outboxRow n = none →
      MsgAlone p (.insertOutbox n row :: B) t now w' → Surely E Q (k ()) w') :
    Surely E Q (insertOutbox p row >>= k) w := by
  obtain ⟨n₀, hn₀⟩ := exists_fresh (msgSchema.applyAll B t).outbox
  refine ⟨⟨.fresh n₀, ?_⟩, fun i r s hs => ?_⟩
  · obtain ⟨s, hs, -⟩ := hw.write (.insertOutbox n₀ row)
    have hnone : (msgSchema.applyAll B t).outboxRow n₀ = none := hn₀
    simp only [hw.view, hnone, hs, if_true, Option.map_some, Option.isSome_some]
  · simp only [hw.view] at hs
    split at hs
    · rename_i n
      split at hs
      · rename_i hnone
        obtain ⟨s', hs', hw'⟩ := hw.write (.insertOutbox n row)
        rw [hs'] at hs
        cases hs
        exact hk _ n hnone hw'
      · cases hs
    · cases hs

theorem surely_select {β : Type} {q : MsgTables → β} {k : β → MsgProgram α} (hw : MsgAlone p B t now w) :
    Surely E Q (select p q >>= k) w ↔ Surely E Q (k (q (msgSchema.applyAll B t))) w :=
  surely_same fun _ => by rw [hw.view]

/-- The rows that the WHERE clause selects, of which there is at least one. -/
theorem surely_updateMessagesWhere {wh : MsgId → Message → Bool} {u : MsgUpdate}
    {k : List MsgId → MsgProgram α} (hw : MsgAlone p B t now w)
    (hne : keysWhere (msgSchema.applyAll B t).messages wh ≠ [])
    (hk : ∀ w', MsgAlone p
      (.updateMessages (keysWhere (msgSchema.applyAll B t).messages wh) u :: B) t now w' →
        Surely E Q (k (keysWhere (msgSchema.applyAll B t).messages wh)) w') :
    Surely E Q (updateMessagesWhere p wh u >>= k) w := by
  obtain ⟨s, hs, hw'⟩ := hw.write
    (.updateMessages (keysWhere (msgSchema.applyAll B t).messages wh) u)
  refine (surely_same fun i => ?_).mpr (hk _ hw')
  simp only [hw.view]
  rw [if_neg (Bool.eq_false_iff.mp (List.isEmpty_eq_false_iff.mpr hne)), hs]
  rfl

theorem surely_updateMessagesWhere_none {wh : MsgId → Message → Bool} {u : MsgUpdate}
    {k : List MsgId → MsgProgram α} (hw : MsgAlone p B t now w)
    (hnil : keysWhere (msgSchema.applyAll B t).messages wh = [])
    (hk : ∀ w', MsgAlone p B t now w' → Surely E Q (k []) w') :
    Surely E Q (updateMessagesWhere p wh u >>= k) w := by
  have hnoted : MsgAlone p B t now (note w p (.unmatched u)) :=
    ⟨hw.free, hw.buf, hw.tables, hw.clock⟩
  refine (surely_same fun i => ?_).mpr (hk _ hnoted)
  simp only [hw.view]
  rw [hnil]
  rfl

theorem surely_updateMessageById {m : MsgId} {u : MsgUpdate} {k : List MsgId → MsgProgram α}
    (hw : MsgAlone p B t now w) {msg : Message}
    (hmsg : (msgSchema.applyAll B t).message m = some msg)
    (hk : ∀ w' ms, (∀ m', m' ∈ ms ↔ m' = m) →
      MsgAlone p (.updateMessages ms u :: B) t now w' → Surely E Q (k ms) w') :
    Surely E Q (updateMessageById p m u >>= k) w := by
  have hms : ∀ m', m' ∈ keysWhere (msgSchema.applyAll B t).messages (fun m' _ => decide (m' = m)) ↔
      m' = m := by
    intro m'
    rw [mem_keysWhere]
    constructor
    · rintro ⟨-, -, heq⟩
      exact of_decide_eq_true heq
    · rintro rfl
      exact ⟨msg, hmsg, decide_eq_true rfl⟩
  exact surely_updateMessagesWhere hw (List.ne_nil_of_mem ((hms m).mpr rfl))
    fun w' hw' => hk w' _ hms hw'

end Rules

end CueApi.Messages
