import CueApi.Scheduler.Invariants
import CueApi.Scheduler.RequestProofs

/-! The poller functions keep to the transactions of `Commits`. Each loop keeps
its rows locked, or knows only that they still exist. -/

namespace CueApi.Scheduler

open ReadCommitted Interleaving Trace

variable {env : Env} {p : Pid} {w : World} {E : History} {B : List Write}

theorem execution_ne_none_of_insert {e : ExecId} {row : Execution} {t : Tables}
    (h : .insertExecution e row ∈ B) : (schema.applyAll B t).execution e ≠ none := by
  obtain ⟨pre, post, rfl⟩ := List.append_of_mem h
  rw [Schema.applyAll_append, Schema.applyAll_cons]
  have hrow : ∃ r, (schema.apply (.insertExecution e row) (schema.applyAll post t)).execution e =
      some r := by
    change ∃ r, (Tables.apply _ _).execution e = some r
    rw [Tables.execution_apply]
    cases (schema.applyAll post t).execution e <;> simp
  obtain ⟨r, hr⟩ := hrow
  obtain ⟨r', hr', -⟩ := (Tables.Grows.applyAll pre _).execution hr
  rw [hr']
  exact Option.some_ne_none r'

theorem outboxRow_ne_none_of_insert {n : OutboxId} {row : OutboxRow} {t : Tables}
    (h : .insertOutbox n row ∈ B) : (schema.applyAll B t).outboxRow n ≠ none := by
  obtain ⟨pre, post, rfl⟩ := List.append_of_mem h
  rw [Schema.applyAll_append, Schema.applyAll_cons]
  have hrow : ∃ o, (schema.apply (.insertOutbox n row) (schema.applyAll post t)).outboxRow n =
      some o := by
    change ∃ o, (Tables.apply _ _).outboxRow n = some o
    rw [Tables.outboxRow_apply]
    cases (schema.applyAll post t).outboxRow n <;> simp
  obtain ⟨o, ho⟩ := hrow
  obtain ⟨o', ho', -⟩ := (Tables.Grows.applyAll pre _).outboxRow ho
  rw [ho']
  exact Option.some_ne_none o'

/-! ## Due cues -/

theorem BatchItem.mem_keys (env : Env) (now began : Time) {i : BatchItem} {e : ExecId}
    {n? : Option OutboxId} (hins : i.inserted = some (e, n?)) :
    .insertExecution e (firedExecution i.c i.scheduledFor began) ∈ i.writes env now began ∧
    ∀ n, n? = some n → .insertOutbox n (firedOutbox env i.c i.cue e i.scheduledFor began) ∈
      i.writes env now began := by
  constructor
  · simp [BatchItem.writes, hins]
  · rintro n rfl
    simp [BatchItem.writes, hins]

/-- Everything an item rests on is locked by its own writes, or only grows. -/
theorem BatchItem.Ok.later {w w' : World} {now began : Time} {i : BatchItem}
    (hok : i.Ok env (replay w.history) now) (hl : Later p w w') (hi : Inv env w)
    (hi' : Inv env w') (hw : At p B E w) (hB : ∀ wr ∈ i.writes env now began, wr ∈ B) :
    i.Ok env (replay w'.history) now where
  row := by
    have h : (replay w'.history).cue i.c = (replay w.history).cue i.c :=
      hl.frozen hi hi' (k := .cue i.c) (hw.locked
        (hB (.updateCue i.c (.advance i.next now)) (by simp [BatchItem.writes]))
        (by simp [Write.keys]))
    exact h.trans hok.row
  active := hok.active
  due := hok.due
  dueBy := hok.dueBy
  next := hok.next
  conflict h := hl.grows.slotTaken (hok.conflict h)
  fresh e n? hins := by
    obtain ⟨he, hs, hworker, hn⟩ := hok.fresh e n? hins
    obtain ⟨hme, hmn⟩ := BatchItem.mem_keys env now began hins
    have he' : (replay w'.history).execution e = (replay w.history).execution e :=
      hl.frozen hi hi' (k := .execution e) (hw.locked (hB _ hme) (by simp [Write.keys]))
    have hs' : (replay w'.history).SlotTaken i.c i.scheduledFor =
        (replay w.history).SlotTaken i.c i.scheduledFor :=
      hl.frozen hi hi' (k := .slot i.c i.scheduledFor)
        (hw.locked (hB _ hme) (by simp [Write.keys, firedExecution]))
    refine ⟨he'.trans he, hs' ▸ hs, hworker, fun n hnn => ?_⟩
    have hn' : (replay w'.history).outboxRow n = (replay w.history).outboxRow n :=
      hl.frozen hi hi' (k := .outbox n) (hw.locked (hB _ (hmn n hnn)) (by simp [Write.keys]))
    exact hn'.trans (hn n hnn)

/-- Between two iterations: what is written and which due cues wait, locked. -/
structure BatchState (env : Env) (p : Pid) (now began : Time) (items : List BatchItem)
    (todo : List (CueId × Cue)) (w : World) : Prop where
  here : At p (items.flatMap (BatchItem.writes env now began)) [.began p .processCueBatch] w
  inv : Inv env w
  time : now ≤ w.clock
  ok : ∀ i ∈ items, i.Ok env (replay w.history) now
  execs : ((items.filterMap BatchItem.inserted).map Prod.fst).Nodup
  outboxes : ((items.filterMap BatchItem.inserted).filterMap Prod.snd).Nodup
  cues : (items.map BatchItem.c ++ todo.map Prod.fst).Nodup
  todo : ∀ x ∈ todo, (replay w.history).cue x.1 = some x.2 ∧ x.2.status = .active ∧
    dueBy now x.2.nextRun = true ∧ w.store.locks (.cue x.1) = some p

variable {now began : Time} {items : List BatchItem} {todo : List (CueId × Cue)} {x : CueId × Cue}

theorem BatchItem.not_mem_execs {t : Tables} {e : ExecId} (he : (schema.applyAll (items.flatMap
      (BatchItem.writes env now began)) t).execution e = none) :
    e ∉ (items.filterMap BatchItem.inserted).map Prod.fst := by
  intro hm
  obtain ⟨⟨_, n?⟩, hm', rfl⟩ := List.mem_map.mp hm
  obtain ⟨i, hi, hins⟩ := List.mem_filterMap.mp hm'
  have hw := (BatchItem.mem_keys env now began hins).1
  exact execution_ne_none_of_insert (List.mem_flatMap.mpr ⟨i, hi, hw⟩) he

theorem BatchItem.not_mem_outboxes {t : Tables} {n : OutboxId} (pre : List Write)
    (hn : (schema.applyAll (pre ++ items.flatMap (BatchItem.writes env now began)) t).outboxRow n =
      none) :
    n ∉ (items.filterMap BatchItem.inserted).filterMap Prod.snd := by
  intro hm
  obtain ⟨⟨e, n?⟩, hm, hn?⟩ := List.mem_filterMap.mp hm
  obtain ⟨i, hi, hins⟩ := List.mem_filterMap.mp hm
  have hw := (BatchItem.mem_keys env now began hins).2 n hn?
  exact outboxRow_ne_none_of_insert
    (List.mem_append_right pre (List.mem_flatMap.mpr ⟨i, hi, hw⟩)) hn

/-- A slot of a waiting cue is taken only in the committed tables. -/
theorem BatchState.slotTaken (hb : BatchState env p now began items (x :: todo) w) {t : Tables}
    {s : Time} (hs : (schema.applyAll (items.flatMap (BatchItem.writes env now began)) t).SlotTaken
      x.1 s) : t.SlotTaken x.1 s := by
  have hrow : (schema.applyAll (items.flatMap (BatchItem.writes env now began)) t).SlotTaken
      x.1 s = t.SlotTaken x.1 s := by
    refine schema.row_applyAll _ t (.slot x.1 s) fun wr hwr hk => ?_
    obtain ⟨i, hi, hwr⟩ := List.mem_flatMap.mp hwr
    have hc : i.c ≠ x.1 := by
      have hn := hb.cues
      simp only [List.map_cons, List.nodup_append] at hn
      exact hn.2.2 i.c (List.mem_map.mpr ⟨i, hi, rfl⟩) x.1 (by simp)
    rcases hins : i.inserted with _ | ⟨e, _ | n⟩ <;>
      simp only [BatchItem.writes, hins, List.nil_append, List.singleton_append, List.mem_cons,
        List.not_mem_nil, or_false] at hwr
    all_goals
      rcases hwr with rfl | hwr
      · simp [schema, Write.keys] at hk
    · rcases hwr with rfl | rfl <;> simp [schema, Write.keys, firedExecution] at hk
      exact hc hk.1.symm
    · rcases hwr with rfl | rfl | rfl <;> simp [schema, Write.keys, firedExecution] at hk
      exact hc hk.1.symm
  exact hrow ▸ hs

/-- One more iteration is written. -/
theorem BatchState.push (hb : BatchState env p now began items (x :: todo) w) {w' : World}
    {i : BatchItem} (hl : Later p w w') (hi : Inv env w')
    (hw : At p (i.writes env now began ++ items.flatMap (BatchItem.writes env now began))
      [.began p .processCueBatch] w')
    (hc : i.c = x.1) (hok : i.Ok env (replay w'.history) now)
    (he : ∀ e n?, i.inserted = some (e, n?) →
      e ∉ (items.filterMap BatchItem.inserted).map Prod.fst ∧
      ∀ n, n? = some n → n ∉ (items.filterMap BatchItem.inserted).filterMap Prod.snd) :
    BatchState env p now began (i :: items) todo w' where
  here := by simpa using hw
  inv := hi
  time := Int.le_trans hb.time hl.clock
  ok j hj := by
    rcases List.mem_cons.mp hj with rfl | hj
    · exact hok
    · exact (hb.ok j hj).later hl hb.inv hi hb.here fun wr hwr =>
        List.mem_flatMap.mpr ⟨j, hj, hwr⟩
  execs := by
    have hn := hb.execs
    cases hins : i.inserted with
    | none => simpa [hins] using hn
    | some y =>
      rw [List.filterMap_cons_some hins, List.map_cons, List.nodup_cons]
      exact ⟨(he y.1 y.2 hins).1, hn⟩
  outboxes := by
    have hn := hb.outboxes
    rcases hins : i.inserted with _ | ⟨e, _ | n⟩
    · simpa [hins] using hn
    · simpa [hins] using hn
    · rw [List.filterMap_cons_some hins,
        List.filterMap_cons_some (f := Prod.snd) (a := (e, some n)) rfl, List.nodup_cons]
      exact ⟨(he e (some n) hins).2 n rfl, hn⟩
  cues := by
    have hn := hb.cues
    rw [List.map_cons, ← hc, List.nodup_middle] at hn
    simpa using hn
  todo y hy := by
    obtain ⟨hrow, hactive, hdue, hlock⟩ := hb.todo y (by simp [hy])
    have h : (replay w'.history).cue y.1 = (replay w.history).cue y.1 :=
      hl.frozen hb.inv hi (k := .cue y.1) hlock
    exact ⟨h.trans hrow, hactive, hdue, hl.locks _ hlock⟩

theorem runs_processCue (hb : BatchState env p now began items (x :: todo) w) :
    Runs env p (fun _ w' => ∃ items, BatchState env p now began items todo w')
      (processCue env p now began x) w := by
  obtain ⟨c, cue⟩ := x
  obtain ⟨hrow, hactive, hdue, hlock⟩ := hb.todo (c, cue) (by simp)
  have frozen : ∀ {w' : World}, Later p w w' → Inv env w' →
      (replay w'.history).cue c = some cue := fun hl hi =>
    (hl.frozen hb.inv hi (k := .cue c) hlock : (replay _).cue c = _).trans hrow
  unfold processCue
  simp only
  split
  · trivial
  rename_i s hs
  have hle : s ≤ now := by simpa [hs, dueBy] using hdue
  refine runs_insertExecution hb.here ?_ ?_
  · intro w₁ hl₁ hw₁ _ hslot
    simp only
    split
    · trivial
    rename_i next hnext
    refine runs_write (k := pure) hw₁ fun w₂ hl₂ hw₂ hi₂ => ?_
    have hl := hl₁.trans hl₂
    exact ⟨_, hb.push (i := ⟨c, cue, s, none, next⟩) hl hi₂ hw₂ rfl
      ⟨frozen hl hi₂, hactive, hs, hle, hnext,
        fun _ => hl₂.grows.slotTaken (hb.slotTaken hslot), by simp⟩ (by simp)⟩
  · intro w₁ e hl₁ hw₁ hi₁ he hslot
    simp only
    have hmem := BatchItem.not_mem_execs he
    -- the new row and its slot stay locked to the commit
    have fresh : ∀ {w' : World}, Later p w₁ w' → Inv env w' →
        (replay w'.history).execution e = none ∧ ¬ (replay w'.history).SlotTaken c s := by
      intro w' hl hi
      have he' : (replay w'.history).execution e = (replay w₁.history).execution e :=
        hl.frozen hi₁ hi (k := .execution e) (hw₁.locked_head (by simp [Write.keys]))
      have hs' : (replay w'.history).SlotTaken c s = (replay w₁.history).SlotTaken c s :=
        hl.frozen hi₁ hi (k := .slot c s)
          (hw₁.locked_head (by simp [Write.keys, firedExecution]))
      refine ⟨he'.trans ?_, hs' ▸ fun h => hslot ((Tables.Grows.applyAll _ _).slotTaken h)⟩
      exact (Tables.Grows.applyAll _ _).execution_none he
    refine runs_write hw₁ fun w₂ hl₂ hw₂ hi₂ => ?_
    split
    · rename_i hworker
      split
      · trivial
      rename_i next hnext
      refine runs_write (k := pure) hw₂ fun w₃ hl₃ hw₃ hi₃ => ?_
      have hl := hl₁.trans (hl₂.trans hl₃)
      obtain ⟨he₃, hs₃⟩ := fresh (hl₂.trans hl₃) hi₃
      refine ⟨_, hb.push (i := ⟨c, cue, s, some (e, none), next⟩) hl hi₃ hw₃ rfl
        ⟨frozen hl hi₃, hactive, hs, hle, hnext, by simp, ?_⟩ ?_⟩
      · rintro _ _ ⟨⟩
        exact ⟨he₃, hs₃, by simp [hworker], by simp⟩
      · rintro _ _ ⟨⟩
        exact ⟨hmem, by simp⟩
    · rename_i hworker
      refine runs_insertOutbox hw₂ fun w₃ n hl₃ hw₃ hi₃ hn => ?_
      have hmemn := BatchItem.not_mem_outboxes
        [.updateCue c (.incrementFired began), .insertExecution e _] hn
      split
      · trivial
      rename_i next hnext
      refine runs_write (k := pure) hw₃ fun w₄ hl₄ hw₄ hi₄ => ?_
      have hl := hl₁.trans (hl₂.trans (hl₃.trans hl₄))
      obtain ⟨he₄, hs₄⟩ := fresh (hl₂.trans (hl₃.trans hl₄)) hi₄
      have hn₄ : (replay w₄.history).outboxRow n = (replay w₃.history).outboxRow n :=
        hl₄.frozen hi₃ hi₄ (k := .outbox n) (hw₃.locked_head (by simp [Write.keys]))
      refine ⟨_, hb.push (i := ⟨c, cue, s, some (e, some n), next⟩) hl hi₄ hw₄ rfl
        ⟨frozen hl hi₄, hactive, hs, hle, hnext, by simp, ?_⟩ ?_⟩
      · rintro _ _ ⟨⟩
        refine ⟨he₄, hs₄, by simp [hworker], ?_⟩
        rintro _ ⟨⟩
        exact hn₄.trans ((Tables.Grows.applyAll _ _).outboxRow_none hn)
      · rintro _ _ ⟨⟩
        refine ⟨hmem, ?_⟩
        rintro _ ⟨⟩
        exact hmemn

theorem runs_processCueBatch (hw : At p [] [.began p .processCueBatch] w) :
    Runs env p (Justified env p) (processCueBatch env p) w := by
  refine runs_clock hw fun w₁ _ hw₁ _ => runs_clock hw₁ fun w₂ hl₂ hw₂ _ => ?_
  refine runs_selectRowsForUpdate hw₂ fun w₃ xs hl₃ hw₃ hi₃ hn hxs => ?_
  have hb : BatchState env p w₁.clock w₂.clock [] xs w₃ := by
    refine ⟨hw₃, hi₃, Int.le_trans hl₂.clock hl₃.clock, by simp, by simp, by simp,
      by simpa using hn, fun x hx => ?_⟩
    obtain ⟨hrow, hwh, hlock⟩ := hxs x hx
    simp only [Bool.and_eq_true, decide_eq_true_eq] at hwh
    exact ⟨hrow, hwh.1, hwh.2, hlock⟩
  refine Safe.bind (Safe.mapEach
    (J := fun _ todo w => ∃ items, BatchState env p w₁.clock w₂.clock items todo w)
    (fun _ x todo w h => ?_) [] ⟨[], hb⟩) fun counts w₄ h₄ => ?_
  · obtain ⟨items, h⟩ := h
    exact runs_processCue h
  obtain ⟨items, hb₄⟩ := h₄
  refine runs_commit hb₄.here fun w₅ hl₅ hw₅ hi₅ =>
    ⟨⟨.processCueBatch, by simp [callOf], ?_⟩, fun w₆ hw₆ _ _ => ?_⟩
  · refine .batch w₁.clock w₂.clock items (Int.le_trans hb₄.time hl₅.clock) (fun i hi => ?_) ?_
      hb₄.execs hb₄.outboxes
    · exact (hb₄.ok i hi).later hl₅ hb₄.inv hi₅ hb₄.here fun wr hwr =>
        List.mem_flatMap.mpr ⟨i, hi, hwr⟩
    · simpa using hb₄.cues
  · exact justified_of .processCueBatch hw₆ (by simp [callOf]) (.plain rfl)

/-! ## Due retries -/

theorem RetryItem.Ok.later {w w' : World} {i : RetryItem} (hok : i.Ok (replay w.history) now)
    (hl : Later p w w') (hi : Inv env w) (hi' : Inv env w') (hw : At p B E w)
    (hB : ∀ wr ∈ i.writes env now began, wr ∈ B) : i.Ok (replay w'.history) now where
  row := by
    have h : (replay w'.history).execution i.e = (replay w.history).execution i.e :=
      hl.frozen hi hi' (k := .execution i.e) (hw.locked
        (hB (.updateExecution i.e (.retryReady now)) (by simp [RetryItem.writes]))
        (by simp [Write.keys]))
    exact h.trans hok.row
  due := hok.due
  fresh := by
    have h : (replay w'.history).outboxRow i.n = (replay w.history).outboxRow i.n :=
      hl.frozen hi hi' (k := .outbox i.n) (hw.locked
        (hB (.insertOutbox i.n (retryOutbox env i.e i.r.cueId i.cue i.r.scheduledFor began))
          (by simp [RetryItem.writes])) (by simp [Write.keys]))
    exact h.trans hok.fresh
  cue := by
    obtain ⟨cue, hcue, hf⟩ := hok.cue
    obtain ⟨cue', hcue', hf'⟩ := hl.grows.cue hcue
    exact ⟨cue', hcue', hf.trans hf'⟩

structure RetryState (env : Env) (p : Pid) (now began : Time) (items : List RetryItem)
    (todo : List (ExecId × Execution)) (w : World) : Prop where
  here : At p (items.flatMap (RetryItem.writes env now began)) [.began p .pollRetries] w
  inv : Inv env w
  time : now ≤ w.clock
  ok : ∀ i ∈ items, i.Ok (replay w.history) now
  outboxes : (items.map RetryItem.n).Nodup
  execs : (items.map RetryItem.e ++ todo.map Prod.fst).Nodup
  todo : ∀ x ∈ todo, (replay w.history).execution x.1 = some x.2 ∧ retryDue now x.2 = true ∧
    w.store.locks (.execution x.1) = some p

theorem RetryItem.writesOn_cue (i : RetryItem) (c : CueId) :
    writesOn (.cue c) (i.writes env now began) = [] := by
  simp [RetryItem.writes, writesOn_cons, Write.target]

section Retry

variable {items : List RetryItem} {todo : List (ExecId × Execution)} {x : ExecId × Execution}

theorem RetryState.later (hb : RetryState env p now began items todo w) {w' : World}
    (hl : Later p w w') (hi : Inv env w')
    (hw : At p (items.flatMap (RetryItem.writes env now began)) [.began p .pollRetries] w') :
    RetryState env p now began items todo w' where
  here := hw
  inv := hi
  time := Int.le_trans hb.time hl.clock
  ok i hm := (hb.ok i hm).later hl hb.inv hi hb.here fun wr hwr =>
    List.mem_flatMap.mpr ⟨i, hm, hwr⟩
  outboxes := hb.outboxes
  execs := hb.execs
  todo y hy := by
    obtain ⟨hrow, hdue, hlock⟩ := hb.todo y hy
    have h : (replay w'.history).execution y.1 = (replay w.history).execution y.1 :=
      hl.frozen hb.inv hi (k := .execution y.1) hlock
    exact ⟨h.trans hrow, hdue, hl.locks _ hlock⟩

theorem runs_retryOne (hb : RetryState env p now began items (x :: todo) w) :
    Runs env p (fun _ w' => ∃ items, RetryState env p now began items todo w')
      (retryOne env p now began x) w := by
  obtain ⟨e, r⟩ := x
  refine runs_select hb.here fun w₁ hl₁ hw₁ hi₁ => ?_
  have hb₁ := hb.later hl₁ hi₁ hw₁
  split
  · refine ⟨items, hb₁.here, hi₁, hb₁.time, hb₁.ok, hb₁.outboxes, ?_, fun y hy => ?_⟩
    · have hn := hb₁.execs
      simp only [List.map_cons, List.nodup_middle, List.nodup_cons] at hn
      exact hn.2
    · exact hb₁.todo y (by simp [hy])
  rename_i cue hcue
  rw [Tables.cue_applyAll, writesOn_flatMap_nil fun i _ => i.writesOn_cue _] at hcue
  refine runs_select hw₁ fun w₂ hl₂ hw₂ hi₂ => ?_
  have hb₂ := hb₁.later hl₂ hi₂ hw₂
  obtain ⟨hr₂, hdue, -⟩ := hb₂.todo (e, r) (by simp)
  obtain ⟨r', hr', hf'⟩ := (Tables.Grows.applyAll
    (items.flatMap (RetryItem.writes env now began)) _).execution hr₂
  simp only [hr', hf'.scheduledFor]
  refine runs_insertOutbox hw₂ fun w₃ n hl₃ hw₃ hi₃ hn => ?_
  refine runs_updateExecutionById hw₃ (HasRow.mono ⟨r, hr₂⟩ hl₃.history)
    fun w₄ _ hl₄ hw₄ hi₄ _ => ?_
  have hl₂₄ := hl₃.trans hl₄
  have hrow₄ : (replay w₄.history).execution e = some r := by
    have h : (replay w₄.history).execution e = (replay w₂.history).execution e :=
      hl₂₄.frozen hi₂ hi₄ (k := .execution e) (hb₂.todo (e, r) (by simp)).2.2
    exact h.trans hr₂
  have hn₄ : (replay w₄.history).outboxRow n = none := by
    have h : (replay w₄.history).outboxRow n = (replay w₃.history).outboxRow n :=
      hl₄.frozen hi₃ hi₄ (k := .outbox n) (hw₃.locked_head (by simp [Write.keys]))
    exact h.trans ((Tables.Grows.applyAll _ _).outboxRow_none hn)
  have hmem : n ∉ items.map RetryItem.n := by
    intro hm
    obtain ⟨i, hi, rfl⟩ := List.mem_map.mp hm
    have hw : .insertOutbox i.n (retryOutbox env i.e i.r.cueId i.cue i.r.scheduledFor began) ∈
        i.writes env now began := by simp [RetryItem.writes]
    exact outboxRow_ne_none_of_insert (List.mem_flatMap.mpr ⟨i, hi, hw⟩) hn
  have hexecs : ((e :: items.map RetryItem.e) ++ todo.map Prod.fst).Nodup := by
    have hn := hb.execs
    rwa [List.map_cons, List.nodup_middle] at hn
  refine ⟨⟨e, r, n, cue⟩ :: items, ⟨by simpa [RetryItem.writes] using hw₄, hi₄,
    Int.le_trans hb₂.time hl₂₄.clock, fun i hm => ?_, List.nodup_cons.mpr ⟨hmem, hb.outboxes⟩,
    by simpa using hexecs, fun y hy => ?_⟩⟩
  · rcases List.mem_cons.mp hm with rfl | hm
    · exact ⟨hrow₄, hdue, hn₄, (hl₂.trans hl₂₄).grows.cue hcue⟩
    · exact (hb₂.ok i hm).later hl₂₄ hi₂ hi₄ hw₂ fun wr hwr => List.mem_flatMap.mpr ⟨i, hm, hwr⟩
  · obtain ⟨hrow, hdue, hlock⟩ := hb₂.todo y (by simp [hy])
    have h : (replay w₄.history).execution y.1 = (replay w₂.history).execution y.1 :=
      hl₂₄.frozen hi₂ hi₄ (k := .execution y.1) hlock
    exact ⟨h.trans hrow, hdue, hl₂₄.locks _ hlock⟩

theorem runs_pollRetries (hw : At p [] [.began p .pollRetries] w) :
    Runs env p (Justified env p) (pollRetries env p) w := by
  refine runs_clock hw fun w₁ _ hw₁ _ => runs_clock hw₁ fun w₂ hl₂ hw₂ _ => ?_
  refine runs_selectRowsForUpdate hw₂ fun w₃ xs hl₃ hw₃ hi₃ hn hxs => ?_
  have hb : RetryState env p w₁.clock w₂.clock [] xs w₃ :=
    ⟨hw₃, hi₃, Int.le_trans hl₂.clock hl₃.clock, by simp, by simp, by simpa using hn, hxs⟩
  refine Safe.bind (Safe.mapEach
    (J := fun _ todo w => ∃ items, RetryState env p w₁.clock w₂.clock items todo w)
    (fun _ x todo w h => ?_) [] ⟨[], hb⟩) fun counts w₄ h₄ => ?_
  · obtain ⟨items, h⟩ := h
    exact runs_retryOne h
  obtain ⟨items, hb₄⟩ := h₄
  refine runs_commit hb₄.here fun w₅ hl₅ hw₅ hi₅ =>
    ⟨⟨.pollRetries, by simp [callOf], ?_⟩, fun w₆ hw₆ _ _ => ?_⟩
  · have hb₅ := hb₄.later hl₅ hi₅ hw₅
    exact .retries w₁.clock w₂.clock items hb₅.time hb₅.ok (by simpa using hb₅.execs) hb₅.outboxes
  · exact justified_of .pollRetries hw₆ (by simp [callOf]) (.plain rfl)

end Retry

/-! ## The outbox -/

structure DispatchState (env : Env) (p : Pid) (rows : List (OutboxId × OutboxUpdate))
    (todo : List (OutboxId × OutboxRow)) (w : World) : Prop where
  here : ∃ E, At p (rows.map fun x => .updateOutbox x.1 x.2) E w ∧
    callOf p E = some .dispatchOutbox
  inv : Inv env w
  sent : ∀ x ∈ rows, x.2 = .dispatched → ∃ j, .enqueued p x.1 j ∈ w.history
  todo : ∀ x ∈ todo, (replay w.history).outboxRow x.1 = some x.2 ∧ x.2.dispatched = false ∧
    w.store.locks (.outbox x.1) = some p

section Dispatch

variable {rows : List (OutboxId × OutboxUpdate)} {todo : List (OutboxId × OutboxRow)}

theorem DispatchState.push {x : OutboxId × OutboxRow}
    (hb : DispatchState env p rows (x :: todo) w) {w' : World} {u : OutboxUpdate}
    (hl : Later p w w') (hi : Inv env w')
    (hw : At p (.updateOutbox x.1 u :: rows.map fun x => .updateOutbox x.1 x.2) E w')
    (hE : callOf p E = some .dispatchOutbox)
    (hsent : u = .dispatched → ∃ j, .enqueued p x.1 j ∈ w'.history) :
    DispatchState env p ((x.1, u) :: rows) todo w' where
  here := ⟨E, hw, hE⟩
  inv := hi
  sent y hy hd := by
    rcases List.mem_cons.mp hy with rfl | hy
    · exact hsent hd
    · obtain ⟨j, hj⟩ := hb.sent y hy hd
      exact ⟨j, hl.history.mem hj⟩
  todo y hy := by
    obtain ⟨hrow, hd, hlock⟩ := hb.todo y (by simp [hy])
    have h : (replay w'.history).outboxRow y.1 = (replay w.history).outboxRow y.1 :=
      hl.frozen hb.inv hi (k := .outbox y.1) hlock
    exact ⟨h.trans hrow, hd, hl.locks _ hlock⟩

theorem runs_dispatchRow {x : OutboxId × OutboxRow}
    (hb : DispatchState env p rows (x :: todo) w) :
    Runs env p (fun _ w' => ∃ rows, DispatchState env p rows todo w') (dispatchRow p x) w := by
  obtain ⟨n, o⟩ := x
  obtain ⟨E, hw, hE⟩ := hb.here
  obtain ⟨hrow, hd, hlock⟩ := hb.todo (n, o) (by simp)
  refine runs_enqueueJob hw (fun w₁ hl₁ hw₁ hi₁ => ⟨?_, fun w₂ hw₂ hi₂ hl₂ => ?_⟩) ?_
  · have h : (replay w₁.history).outboxRow n = (replay w.history).outboxRow n :=
      hl₁.frozen hb.inv hi₁ (k := .outbox n) hlock
    exact ⟨hw₁.callOf_eq.trans hE, o, h.trans hrow, hd, rfl⟩
  · refine runs_write hw₂ fun w₃ hl₃ hw₃ hi₃ => ⟨_, hb.push (hl₂.trans hl₃) hi₃ hw₃ ?_ fun _ => ?_⟩
    · simpa [callOf] using hE
    · exact ⟨⟨o.taskType, o.payload⟩, (mem_own rfl).mp (by rw [hw₃.own]; simp)⟩
  · intro w₁ error hl₁ hw₁ hi₁
    exact runs_write hw₁ fun w₂ hl₂ hw₂ hi₂ =>
      ⟨_, hb.push (hl₁.trans hl₂) hi₂ hw₂ hE (fun h => by cases h)⟩

theorem runs_dispatchOutbox (hw : At p [] [.began p .dispatchOutbox] w) :
    Runs env p (Justified env p) (dispatchOutbox env p) w := by
  refine runs_clock hw fun w₁ _ hw₁ _ => ?_
  refine runs_selectRowsForUpdate hw₁ fun w₂ xs _ hw₂ hi₂ _ hxs => ?_
  have hb : DispatchState env p [] xs w₂ := by
    refine ⟨⟨_, hw₂, by simp [callOf]⟩, hi₂, by simp, fun x hx => ?_⟩
    obtain ⟨hrow, hwh, hlock⟩ := hxs x hx
    simp only [Bool.and_eq_true, Bool.not_eq_true'] at hwh
    exact ⟨hrow, hwh.1, hlock⟩
  refine Safe.bind (Safe.mapEach
    (J := fun _ todo w => ∃ rows, DispatchState env p rows todo w)
    (fun _ x todo w h => ?_) [] ⟨[], hb⟩) fun counts w₃ h₃ => ?_
  · obtain ⟨rows, h⟩ := h
    exact runs_dispatchRow h
  obtain ⟨rows, hb₃⟩ := h₃
  obtain ⟨E, hw₃, hE⟩ := hb₃.here
  refine runs_commit hw₃ fun w₄ hl₄ _ _ => ⟨⟨.dispatchOutbox, hE, .dispatched rows ?_⟩, ?_⟩
  · intro x hx hd
    obtain ⟨j, hj⟩ := hb₃.sent x hx hd
    exact ⟨j, hl₄.history.mem hj⟩
  · intro w₅ hw₅ _ _
    exact justified_of .dispatchOutbox hw₅ (by simpa [callOf] using hE) (.plain rfl)

end Dispatch

end CueApi.Scheduler
