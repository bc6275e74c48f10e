import CueApi.Events.Digests
import CueApi.Events.Order
import CueApi.Messages.ReaderProofs

/-! When the runs of `emit_digests` share the events out among the digests. What a run commits is
right for a bundle that nobody has touched since it was read, and for one that another run has
committed as a whole; a bundle of which another run has committed a part is listed twice, or marked
and not listed. -/

namespace CueApi.Events

open Scheduler (Pid Time)
open Messages

variable {s s' : Stream} {p : Pid} {x d : EventId} {r : EventRow} {row : EventRow} {m : MsgId}
variable {t t' : MsgTables} {g : Group}

/-! ## Rows -/

/-- A row of the table, or one that is not committed. -/
def InRow (s : Stream) (x : EventId) (r : EventRow) : Prop :=
  s.tables.event x = some r ∨ ∃ p, (p, x, r) ∈ s.emitted

/-- Each row has its id and its key. -/
structure Keyed (s : Stream) : Prop where
  below : ∀ x r, InRow s x r → x < s.nextId
  fresh : ∀ y ∈ s.emitted, s.tables.event y.2.1 = none
  nodup : (s.emitted.map fun y => y.2.1).Nodup
  key : ∀ x x' r r', InRow s x r → InRow s x' r' → r.idempotencyKey = r'.idempotencyKey → x = x'

/-- The key stands in the table. -/
def taken (t : MsgTables) (key : EventKey) : Bool :=
  t.events.entries.any fun y => y.2.idempotencyKey = key

theorem taken_iff {key : EventKey} :
    taken t key = true ↔ ∃ x r, t.event x = some r ∧ r.idempotencyKey = key := by
  unfold taken
  rw [List.any_eq_true]
  constructor
  · rintro ⟨y, hy, hkey⟩
    exact ⟨y.1, y.2, AList.mem_lookup_iff.mpr hy, of_decide_eq_true hkey⟩
  · rintro ⟨x, r, hr, hkey⟩
    exact ⟨⟨x, r⟩, AList.mem_lookup_iff.mp hr, decide_eq_true hkey⟩

/-- The rows of a table stay, but for `digested_at`. -/
def Kept (t t' : MsgTables) : Prop :=
  ∀ x r, t.event x = some r → ∃ r', t'.event x = some r' ∧
    r'.recipientAgentId = r.recipientAgentId ∧ r'.payload = r.payload ∧
    r'.idempotencyKey = r.idempotencyKey

theorem Kept.refl (t : MsgTables) : Kept t t := fun _ r hr => ⟨r, hr, rfl, rfl, rfl⟩

theorem Kept.trans {t₁ t₂ t₃ : MsgTables} (h : Kept t₁ t₂) (h' : Kept t₂ t₃) : Kept t₁ t₃ := by
  intro x r hr
  obtain ⟨r₂, hr₂, ha₂, hp₂, hk₂⟩ := h x r hr
  obtain ⟨r₃, hr₃, ha₃, hp₃, hk₃⟩ := h' x r₂ hr₂
  exact ⟨r₃, hr₃, ha₃.trans ha₂, hp₃.trans hp₂, hk₃.trans hk₂⟩

theorem event_insertEvents_new {rows : List (EventId × EventRow)} (hx : (x, r) ∈ rows) :
    ∃ r', (insertEvents t rows).event x = some r' := by
  induction rows generalizing t with
  | nil => cases hx
  | cons y rows ih =>
    rcases List.mem_cons.mp hx with rfl | hx
    · have hnew : ∃ r', (t.apply (.insertEvent x r)).event x = some r' := by
        rw [MsgTables.event_apply]
        dsimp only
        rw [if_pos rfl]
        cases t.event x with
        | none => exact ⟨r, rfl⟩
        | some r' => exact ⟨r', rfl⟩
      obtain ⟨r', hr'⟩ := hnew
      refine ⟨r', ?_⟩
      change (insertEvents (t.apply (.insertEvent x r)) rows).event x = some r'
      exact event_insertEvents_of hr'
    · exact ih hx

theorem kept_insertEvents (t : MsgTables) (rows : List (EventId × EventRow)) :
    Kept t (insertEvents t rows) := fun _ r hr => ⟨r, event_insertEvents_of hr, rfl, rfl, rfl⟩

theorem kept_markDigested (t : MsgTables) (xs : List EventId) (now : Time) :
    Kept t (t.apply (.markDigested xs now)) := by
  intro x r hr
  rw [MsgTables.event_apply]
  dsimp only
  split
  · exact ⟨{ r with digestedAt := some now }, congrArg (Option.map _) hr, rfl, rfl, rfl⟩
  · exact ⟨r, hr, rfl, rfl, rfl⟩

/-! ## Emitting -/

/-- An UPSERT adds a row under a new key, or meets a row of its own transaction or of the table. -/
theorem emit_outcome (h : s.emit p row = some s') :
    (s' = { s with nextId := s.nextId + 1, emitted := (p, s.nextId, row) :: s.emitted } ∧
      (∀ y ∈ s.emitted, y.2.2.idempotencyKey ≠ row.idempotencyKey) ∧
      taken s.tables row.idempotencyKey = false) ∨
    (s' = { s with nextId := s.nextId + 1 } ∧
      ((∃ y ∈ s.pending p, y.2.idempotencyKey = row.idempotencyKey) ∨
        taken s.tables row.idempotencyKey = true)) := by
  unfold Stream.emit at h
  split at h
  · cases h
  · rename_i hwait
    simp only [List.any_eq_true, Bool.and_eq_true, decide_eq_true_eq, not_exists, not_and] at hwait
    cases h
    split
    · rename_i htaken
      refine .inr ⟨rfl, ?_⟩
      rcases (Bool.or_eq_true _ _).mp htaken with hown | htaken
      · obtain ⟨y, hy, hkey⟩ := List.any_eq_true.mp hown
        have hkey := of_decide_eq_true hkey
        have hp : y.1 = p := by
          by_contra hne
          exact hwait y hy hne hkey
        exact .inl ⟨y.2, mem_pending.mpr (hp ▸ hy), hkey⟩
      · exact .inr htaken
    · rename_i hfree
      simp only [Bool.or_eq_true, not_or, Bool.not_eq_true] at hfree
      refine .inl ⟨rfl, fun y hy hkey => ?_, hfree.2⟩
      have hany := List.any_eq_false.mp hfree.1 y hy
      exact hany (decide_eq_true hkey)

/-- Ids and keys stay apart when the rows of a step are rows of before. -/
theorem Keyed.of_rows (hk : Keyed s) (hnext : s.nextId ≤ s'.nextId)
    (hrows : ∀ x r', InRow s' x r' → ∃ r, InRow s x r ∧ r'.idempotencyKey = r.idempotencyKey)
    (hfresh : ∀ y ∈ s'.emitted, s'.tables.event y.2.1 = none)
    (hsub : s'.emitted.Sublist s.emitted) : Keyed s' where
  below x r' hr' := by
    obtain ⟨r, hr, -⟩ := hrows x r' hr'
    exact Nat.lt_of_lt_of_le (hk.below x r hr) hnext
  fresh := hfresh
  nodup := (hsub.map _).nodup hk.nodup
  key x x' r r' hr hr' heq := by
    obtain ⟨r₁, hr₁, hk₁⟩ := hrows x r hr
    obtain ⟨r₂, hr₂, hk₂⟩ := hrows x' r' hr'
    exact hk.key x x' r₁ r₂ hr₁ hr₂ (by rw [← hk₁, ← hk₂, heq])

theorem emit_tables (h : s.emit p row = some s') : s'.tables = s.tables := by
  rcases emit_outcome h with ⟨rfl, -⟩ | ⟨rfl, -⟩ <;> rfl

theorem mem_emitted_emit (h : s.emit p row = some s') {y : Pid × EventId × EventRow}
    (hy : y ∈ s'.emitted) : y ∈ s.emitted ∨ y = (p, s.nextId, row) := by
  rcases emit_outcome h with ⟨rfl, -⟩ | ⟨rfl, -⟩
  · exact (List.mem_cons.mp hy).symm
  · exact .inl hy

theorem InRow.of_emit (h : s.emit p row = some s') (hr : InRow s' x r) :
    InRow s x r ∨ (x = s.nextId ∧ r = row) := by
  rcases hr with hr | ⟨q, hq⟩
  · exact .inl (.inl (emit_tables h ▸ hr))
  · rcases mem_emitted_emit h hq with hq | heq
    · exact .inl (.inr ⟨q, hq⟩)
    · cases heq
      exact .inr ⟨rfl, rfl⟩

theorem Keyed.next_free (hk : Keyed s) : s.tables.event s.nextId = none := by
  cases hr : s.tables.event s.nextId with
  | none => rfl
  | some r => exact absurd (hk.below _ r (.inl hr)) (Nat.lt_irrefl _)

theorem Keyed.emit (hk : Keyed s) (h : s.emit p row = some s') : Keyed s' := by
  have hrows {x : EventId} {r : EventRow} (hr : InRow s' x r) := hr.of_emit h
  rcases emit_outcome h with ⟨rfl, hown, htaken⟩ | ⟨rfl, -⟩
  · have hnew {x : EventId} {r : EventRow} (hr : InRow s x r) :
        r.idempotencyKey ≠ row.idempotencyKey := by
      rcases hr with hr | ⟨q, hq⟩
      · intro hkey
        have htrue := taken_iff.mpr ⟨x, r, hr, hkey⟩
        rw [htaken] at htrue
        cases htrue
      · exact hown _ hq
    constructor
    · intro x r hr
      rcases hrows hr with hr | ⟨rfl, -⟩
      · exact Nat.lt_succ_of_lt (hk.below x r hr)
      · exact Nat.lt_succ_self _
    · intro y hy
      rcases List.mem_cons.mp hy with rfl | hy
      · exact hk.next_free
      · exact hk.fresh y hy
    · rw [List.map_cons, List.nodup_cons]
      refine ⟨fun hmem => ?_, hk.nodup⟩
      obtain ⟨y, hy, hid⟩ := List.mem_map.mp hmem
      exact absurd (hk.below y.2.1 y.2.2 (.inr ⟨y.1, hy⟩)) (by rw [hid]; exact Nat.lt_irrefl _)
    · intro x x' r r' hr hr' heq
      rcases hrows hr with hold | ⟨hx, hrow⟩
      · rcases hrows hr' with hold' | ⟨-, hrow'⟩
        · exact hk.key x x' r r' hold hold' heq
        · exact absurd (heq.trans (by rw [hrow'])) (hnew hold)
      · rcases hrows hr' with hold' | ⟨hx', -⟩
        · exact absurd (heq.symm.trans (by rw [hrow])) (hnew hold')
        · rw [hx, hx']
  · exact hk.of_rows (Nat.le_succ _) (fun x r hr => ⟨r, hr, rfl⟩) hk.fresh (List.Sublist.refl _)

theorem InRow.of_rollback (hr : InRow (s.rollback p) x r) : InRow s x r := by
  rcases hr with hr | ⟨q, hq⟩
  · exact .inl hr
  · exact .inr ⟨q, List.mem_of_mem_filter hq⟩

theorem InRow.of_commit (hr : InRow (s.commit p) x r) : InRow s x r := by
  rcases hr with hr | ⟨q, hq⟩
  · rcases event_insertEvents hr with hr | hr
    · exact .inl hr
    · exact .inr ⟨p, mem_pending.mp hr⟩
  · exact .inr ⟨q, List.mem_of_mem_filter hq⟩

theorem Keyed.rollback (hk : Keyed s) (p : Pid) : Keyed (s.rollback p) :=
  hk.of_rows (Nat.le_refl _) (fun _ r hr => ⟨r, hr.of_rollback, rfl⟩)
    (fun y hy => hk.fresh y (List.mem_of_mem_filter hy)) List.filter_sublist

/-- An id that is not committed belongs to one row. -/
theorem Keyed.emitted_inj (hk : Keyed s) {y z : Pid × EventId × EventRow} (hy : y ∈ s.emitted)
    (hz : z ∈ s.emitted) (h : y.2.1 = z.2.1) : y = z :=
  List.inj_on_of_nodup_map hk.nodup hy hz h

/-- A commit puts the rows of its transaction into the table. -/
theorem Keyed.committed (hk : Keyed s) (hx : (x, r) ∈ s.pending p) :
    (s.commit p).tables.event x = some r := by
  obtain ⟨r', hr'⟩ := event_insertEvents_new (t := s.tables) hx
  rcases event_insertEvents hr' with hold | hnew
  · have hfresh := hk.fresh _ (mem_pending.mp hx)
    rw [hold] at hfresh
    cases hfresh
  · have heq := hk.emitted_inj (mem_pending.mp hx) (mem_pending.mp hnew) rfl
    cases heq
    exact hr'

theorem Keyed.commit (hk : Keyed s) (p : Pid) : Keyed (s.commit p) := by
  refine hk.of_rows (Nat.le_refl _) (fun _ r hr => ⟨r, hr.of_commit, rfl⟩) (fun y hy => ?_)
    List.filter_sublist
  obtain ⟨hy, hne⟩ := List.mem_filter.mp hy
  cases hr : (s.commit p).tables.event y.2.1 with
  | none => rfl
  | some r =>
    rcases event_insertEvents hr with hr | hr
    · rw [hk.fresh y hy] at hr
      cases hr
    · have heq := hk.emitted_inj hy (mem_pending.mp hr) rfl
      exact absurd (congrArg Prod.fst heq) (of_decide_eq_true hne)

/-- An UPSERT of `p` leaves the rows of the others. -/
theorem pending_emit {q : Pid} (h : s.emit p row = some s') (hq : q ≠ p) :
    s'.pending q = s.pending q := by
  rcases emit_outcome h with ⟨rfl, -⟩ | ⟨rfl, -⟩
  · unfold Stream.pending
    rw [List.filter_cons_of_neg (by simpa using Ne.symm hq)]
  · rfl

theorem pending_filter {q : Pid} (hq : q ≠ p) :
    (s.rollback p).pending q = s.pending q := by
  unfold Stream.pending Stream.rollback
  dsimp only
  rw [List.filter_filter]
  refine congrArg (List.map Prod.snd) (List.filter_congr fun y _ => ?_)
  by_cases hy : y.1 = q
  · simp [hy, hq]
  · simp [hy]

theorem not_mem_pending_rollback {y : EventId × EventRow} :
    y ∉ (s.rollback p).pending p := by
  rw [mem_pending]
  exact fun hy => absurd rfl (of_decide_eq_true (List.mem_filter.mp hy).2)

theorem kept_emit (h : s.emit p row = some s') : Kept s.tables s'.tables :=
  emit_tables h ▸ .refl _

theorem mem_pending_emit (h : s.emit p row = some s') {y : EventId × EventRow}
    (hy : y ∈ s'.pending p) : y ∈ s.pending p ∨ y.2 = row := by
  rcases mem_emitted_emit h (mem_pending.mp hy) with hy | heq
  · exact .inl (mem_pending.mpr hy)
  · exact .inr (congrArg (fun z => z.2.2) heq)

theorem pending_emit_subset (h : s.emit p row = some s') :
    s.pending p ⊆ s'.pending p := by
  intro y hy
  rcases emit_outcome h with ⟨rfl, -⟩ | ⟨rfl, -⟩
  · exact mem_pending.mpr (List.mem_cons_of_mem _ (mem_pending.mp hy))
  · exact hy

/-- A row after an UPDATE of `digested_at`. -/
theorem event_markDigested {xs : List EventId} {now : Time}
    (h : (t.apply (.markDigested xs now)).event x = some r) :
    (x ∉ xs ∧ t.event x = some r) ∨
      (x ∈ xs ∧ ∃ r₀, t.event x = some r₀ ∧ r = { r₀ with digestedAt := some now }) := by
  rw [MsgTables.event_apply] at h
  dsimp only at h
  split at h
  · rename_i hx
    obtain ⟨r₀, hr₀, rfl⟩ := Option.map_eq_some_iff.mp h
    exact .inr ⟨hx, r₀, hr₀, rfl⟩
  · rename_i hx
    exact .inl ⟨hx, h⟩

theorem Keyed.markDigested (hk : Keyed s) (xs : List EventId) (now : Time) :
    Keyed { s with tables := s.tables.apply (.markDigested xs now) } := by
  refine hk.of_rows (Nat.le_refl _) (fun x r hr => ?_) (fun y hy => ?_) (List.Sublist.refl _)
  · rcases hr with hr | ⟨q, hq⟩
    · rcases event_markDigested hr with ⟨-, hr⟩ | ⟨-, r₀, hr₀, rfl⟩
      · exact ⟨r, .inl hr, rfl⟩
      · exact ⟨r₀, .inl hr₀, rfl⟩
    · exact ⟨r, .inr ⟨q, hq⟩, rfl⟩
  · cases hr : (s.tables.apply (.markDigested xs now)).event y.2.1 with
    | none => rfl
    | some r =>
      have hnone := hk.fresh y hy
      rcases event_markDigested hr with ⟨-, hr⟩ | ⟨-, r₀, hr₀, -⟩
      · rw [hr] at hnone
        cases hnone
      · rw [hr₀] at hnone
        cases hnone

end CueApi.Events
