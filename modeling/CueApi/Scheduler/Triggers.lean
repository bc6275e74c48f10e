import CueApi.Scheduler.Alone
import CueApi.Scheduler.Transport

/-! Requests one after another: fires and replays by users, and the ticks of the poller. All
three insert executions under the unique key `(cue_id, scheduled_for)`; the poller swallows a
conflict, the other two raise. -/

namespace CueApi.Scheduler

open ReadCommitted Interleaving Prog

variable {env : Env} {p : Pid} {t : Tables} {now : Time} {h : History} {w : World}

/-! ## Serial runs -/

structure Request where
  p : Pid
  call : Call
  answers : List Answer

/-- The state in which `p` begins `call`, with no other session open. -/
def World.opened (w : World) (p : Pid) (call : Call) : World := w.closed.log (.began p call)

theorem alone_opened (p : Pid) (call : Call) (w : World) :
    Alone p [] w.tables w.clock (.began p call :: w.history) (w.opened p call) :=
  (alone_closed p w).log _

/-- One request from its first to its last statement; `none` if it has not ended. -/
def serve (env : Env) (w : World) (q : Request) : Option World :=
  match (programOf env q.p q.call).follow (w.opened q.p q.call) q.answers with
  | some (.ret reply, w') => some (w'.log (.ended q.p (.returned reply)))
  | some (.fail, w') => some (w'.log (.ended q.p .raised))
  | _ => none

inductive Item
  | wait (d : Nat)
  | request (q : Request)

/-- The requests of a serial run, each with the state it met. A process serves one request. -/
def serial (env : Env) (w : World) : List Item → Option (List (World × Request))
  | [] => some []
  | .wait d :: items => serial env { w with clock := w.clock + d } items
  | .request q :: items =>
      if own q.p w.history = [] ∧ startable w.history q.call then
        (serve env w q).bind fun w' => (serial env w' items).map ((w, q) :: ·)
      else none

/-! ## What a trigger is owed -/

def due (now : Time) (cue : Cue) : Bool := cue.status = .active && dueBy now cue.nextRun

/-- The SELECT of `_process_cue_batch` may return the cues `ids`. -/
def Due (env : Env) (w : World) (ids : List CueId) : Prop :=
  Picks env.settings.pollerBatchSize (orderBy w.tables.cues fun cue => cue.nextRun.getD 0)
    (rowsWhere w.tables Tables.cues fun _ cue => due w.clock cue) ids

section Trigger

variable {user : UserId} {c : CueId} {cue : Cue} {source : Trigger} {s began : Time}
variable {scheduledAt : Option Time} {metadata : Option Json}

end Trigger

/-- In the loop of the batch: the cues done have moved on, and each whose slot was free has
its execution. -/
structure Batching (p : Pid) (t : Tables) (now : Time) (h : History)
    (done todo : List (CueId × Cue)) (w : World) : Prop where
  alone : Alone p (w.store.buf p) t now h w
  nodup : ((done ++ todo).map Prod.fst).Nodup
  rows : ∀ x ∈ done ++ todo, t.cue x.1 = some x.2 ∧ due now x.2 = true
  fired : ∀ x ∈ done, ∀ s, x.2.nextRun = some s → ¬ t.SlotTaken x.1 s → ∃ e, t.execution e = none ∧
    (w.view p).execution e = some (firedExecution x.1 s now)
  execs : ∀ e r, (w.view p).execution e = some r → t.execution e = some r ∨
    t.execution e = none ∧ r.cueId ∈ done.map Prod.fst ∧ ¬ t.SlotTaken r.cueId r.scheduledFor
  kept : ∀ e r, t.execution e = some r → (w.view p).execution e = some r
  advanced : ∀ c, c ∈ done.map Prod.fst ↔
    ∃ next n, .updateCue c (.advance next n) ∈ w.store.buf p

section Batch

variable {done todo : List (CueId × Cue)} {x : CueId × Cue} {s : Time}

theorem Batching.view (hj : Batching p t now h done todo w) :
    w.view p = schema.applyAll (w.store.buf p) t := hj.alone.view

theorem Batching.notDone (hj : Batching p t now h done (x :: todo) w) :
    x.1 ∉ done.map Prod.fst := by
  have hn := hj.nodup
  rw [List.map_append, List.map_cons] at hn
  exact fun hm => (List.disjoint_of_nodup_append hn) hm (by simp)

/-- The slot of the next cue is as the batch found it. -/
theorem Batching.slot (hj : Batching p t now h done (x :: todo) w) :
    (schema.applyAll (w.store.buf p) t).SlotTaken x.1 s ↔ t.SlotTaken x.1 s := by
  rw [← hj.view]
  constructor
  · rintro ⟨e, r, hr, hc, hs⟩
    rcases hj.execs e r hr with hr | ⟨-, hm, -⟩
    · exact ⟨e, r, hr, hc, hs⟩
    · exact absurd (hc ▸ hm) hj.notDone
  · rintro ⟨e, r, hr, hc, hs⟩
    exact ⟨e, r, hj.kept e r hr, hc, hs⟩

/-- One turn of the loop: the writes `ws` move `x.1` on and touch no execution; before them
comes the INSERT, if there was one. -/
theorem Batching.next (hj : Batching p t now h done (x :: todo) w) (hs : x.2.nextRun = some s)
    {w' : World} (ws ins : List Write) (hskip : ∀ t e, (schema.applyAll ws t).execution e =
      t.execution e) (hadv : ∀ c, (∃ next n, .updateCue c (.advance next n) ∈ ws) ↔ c = x.1)
    (hw' : Alone p (ws ++ ins ++ w.store.buf p) t now h w')
    (hins : (ins = [] ∧ t.SlotTaken x.1 s) ∨ ∃ e, ins = [.insertExecution e
      (firedExecution x.1 s now)] ∧ (w.view p).execution e = none ∧ ¬ t.SlotTaken x.1 s) :
    Batching p t now h (done ++ [x]) todo w' := by
  have hview : ∀ e, (w'.view p).execution e =
      (schema.applyAll ins (w.view p)).execution e := by
    intro e
    rw [hw'.view, hj.view, List.append_assoc, Schema.applyAll_append, hskip,
      Schema.applyAll_append]
  have hold : ∀ e r, (w.view p).execution e = some r → (w'.view p).execution e = some r := by
    intro e r hr
    rw [hview]
    rcases hins with ⟨rfl, -⟩ | ⟨e', rfl, -, -⟩
    · exact hr
    · simp [Tables.execution_apply, hr]
  have hnone : ∀ e, (w.view p).execution e = none → t.execution e = none := by
    intro e he
    cases hr : t.execution e with
    | none => rfl
    | some r =>
      rw [hj.kept e r hr] at he
      cases he
  refine ⟨⟨hw'.free, rfl, hw'.tables, hw'.clock, hw'.history⟩, by simpa using hj.nodup,
    by simpa using hj.rows, fun y hy s' hs' hfree => ?_, fun e r hr => ?_,
    fun e r hr => hold e r (hj.kept e r hr), fun c => ?_⟩
  · rcases List.mem_append.mp hy with hy | hy
    · obtain ⟨e, he, hrow⟩ := hj.fired y hy s' hs' hfree
      exact ⟨e, he, hold e _ hrow⟩
    · rw [List.mem_singleton] at hy
      subst hy
      rw [hs] at hs'
      cases hs'
      rcases hins with ⟨-, htaken⟩ | ⟨e, rfl, he, -⟩
      · exact absurd htaken hfree
      · exact ⟨e, hnone e he, by rw [hview]; simp [Tables.execution_apply, he]⟩
  · rw [hview] at hr
    have hgrow : r.cueId ∈ done.map Prod.fst → r.cueId ∈ (done ++ [x]).map Prod.fst := by
      intro hm
      rw [List.map_append]
      exact List.mem_append_left _ hm
    rcases hins with ⟨rfl, -⟩ | ⟨e', rfl, he', hfree⟩
    · exact (hj.execs e r hr).imp id fun ⟨hn, hm, hf⟩ => ⟨hn, hgrow hm, hf⟩
    · by_cases hee : e = e'
      · subst hee
        simp only [Schema.applyAll_cons, Schema.applyAll_nil, schema_apply,
          Tables.execution_apply, if_true, he', Option.none_or, Option.some.injEq] at hr
        subst hr
        exact .inr ⟨hnone e he', by simp [firedExecution], hfree⟩
      · simp only [Schema.applyAll_cons, Schema.applyAll_nil, schema_apply,
          Tables.execution_apply, if_neg hee] at hr
        exact (hj.execs e r hr).imp id fun ⟨hn, hm, hf⟩ => ⟨hn, hgrow hm, hf⟩
  · have hinsno : ¬ ∃ next n, Write.updateCue c (.advance next n) ∈ ins := by
      rcases hins with ⟨rfl, -⟩ | ⟨e, rfl, -, -⟩ <;> simp
    rw [hw'.buf, List.map_append, List.mem_append, hj.advanced c]
    simp only [List.map_cons, List.map_nil, List.mem_singleton, List.mem_append, exists_or,
      hadv c, hinsno, or_false]
    exact or_comm

theorem surely_processCue (hj : Batching p t now h done (x :: todo) w)
    (hcron : ∀ s, x.2.nextRun = some s → (nextRunAfter env x.2 s).isSome) :
    Surely False (fun _ w' => Batching p t now h (done ++ [x]) todo w')
      (processCue env p now now x) w := by
  obtain ⟨c, cue⟩ := x
  have hdue := (hj.rows (c, cue) (by simp)).2
  unfold processCue
  cases hs : cue.nextRun with
  | none => simp [due, hs, dueBy] at hdue
  | some s =>
    obtain ⟨next, hnext⟩ := Option.isSome_iff_exists.mp (hcron s hs)
    simp only [hs, hnext]
    have move : ∀ {w' : World} (ws ins : List Write), (∀ t e, (schema.applyAll ws t).execution e =
        t.execution e) → (∀ c' next n, Write.updateCue c' (.advance next n) ∉ ws) →
        Alone p (ws ++ ins ++ w.store.buf p) t now h w' →
        ((ins = [] ∧ t.SlotTaken c s) ∨ ∃ e, ins = [.insertExecution e
          (firedExecution c s now)] ∧ (w.view p).execution e = none ∧ ¬ t.SlotTaken c s) →
        Surely False (fun _ w' => Batching p t now h (done ++ [(c, cue)]) todo w')
          (updateCue p c (.advance next now)) w' := by
      intro w' ws ins hskip hno hw' hins
      refine surely_write (k := pure) hw' fun w₁ hw₁ => ?_
      refine hj.next hs (.updateCue c (.advance next now) :: ws) ins ?_ ?_ hw₁ hins
      · intro t e
        rw [Schema.applyAll_cons, schema_apply, Tables.execution_apply]
        exact hskip t e
      · intro c'
        constructor
        · rintro ⟨next', n, hm⟩
          rcases List.mem_cons.mp hm with heq | hm
          · cases heq
            rfl
          · exact absurd hm (hno _ _ _)
        · rintro rfl
          exact ⟨next, now, by simp⟩
    refine surely_insertExecution hj.alone (fun htaken => ?_) fun w₁ e hfree he hw₁ => ?_
    · exact move [] [] (fun _ _ => rfl) (by simp) hj.alone
        (.inl ⟨rfl, hj.slot.mp htaken⟩)
    · have hins : ∃ e', [Write.insertExecution e (firedExecution c s now)] =
          [.insertExecution e' (firedExecution c s now)] ∧ (w.view p).execution e' = none ∧
          ¬ t.SlotTaken c s :=
        ⟨e, rfl, by rw [hj.view]; exact he, fun hst => hfree (hj.slot.mpr hst)⟩
      refine surely_write hw₁ fun w₂ hw₂ => ?_
      split
      · refine move [.updateCue c (.incrementFired now)] [_] ?_ (by simp) hw₂ (.inr hins)
        intro t e
        simp [Tables.execution_apply]
      · refine surely_insertOutbox hw₂ fun w₃ n _ hw₃ => ?_
        refine move [.insertOutbox n _, .updateCue c (.incrementFired now)] [_] ?_ (by simp) hw₃
          (.inr hins)
        intro t e
        simp [Tables.execution_apply]

/-- The rows the SELECT returns for `ids`. -/
theorem dueRows {ids : List CueId} (hp : Due env w ids) :
    ((rowsAt w.tables.cues ids).map Prod.fst).Nodup ∧
    (∀ x ∈ rowsAt w.tables.cues ids, x.1 ∈ ids ∧ w.tables.cue x.1 = some x.2 ∧
      due w.clock x.2 = true) ∧
    ∀ c ∈ ids, ∀ cue, w.tables.cue c = some cue → (c, cue) ∈ rowsAt w.tables.cues ids := by
  refine ⟨rowsAt_nodup _ hp.1, fun x hx => ?_, fun c hc cue hcue => ?_⟩
  · obtain ⟨hid, hl⟩ := mem_rowsAt hx
    obtain ⟨v, hv, hdue⟩ := (mem_keysWhere _ _ _).mp (hp.2.1 x.1 hid)
    rw [hl] at hv
    cases hv
    exact ⟨hid, hl, hdue⟩
  · refine List.mem_filterMap.mpr ⟨c, hc, ?_⟩
    rw [show w.tables.cues.lookup c = some cue from hcue]
    rfl

end Batch

/-! ## Every order of requests -/

end CueApi.Scheduler
