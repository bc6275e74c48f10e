import CueApi.Library.Bulk

/-! An UPDATE of a table with unique indexes: it comes to its rows in some order and checks the
indexes after each of them, so that an order can fail where another does not. -/

namespace IndexedRows

variable {Row Id β : Type} [DecidableEq Id]

/-- Rows for which the unique indexes hold. -/
abbrev Table (Indexed : List Row → Prop) : Type := { rows : List Row // Indexed rows }

/-- The order in which a scan comes to rows. -/
structure Scan (Id : Type) where
  order : List Id → List Id
  perm : ∀ ids, (order ids).Perm ids

variable (id : Row → Id) {Indexed : List Row → Prop} [DecidablePred Indexed]

def setRow (set : Row → Row) (i : Id) (rows : List Row) : List Row :=
  rows.map fun r => if id r = i then set r else r

/-- `none` is a unique violation. -/
def setRows (set : Row → Row) : List Id → Table Indexed → Option (Table Indexed)
  | [], t => some t
  | i :: ids, t =>
      if h : Indexed (setRow id set i t.1) then setRows set ids ⟨_, h⟩ else none

/-- `UPDATE … RETURNING`: the new versions of the rows it hit, and the table. -/
def update (scan : Scan Id) (u : Bulk.Update Row) (t : Table Indexed) :
    Option (List Row × Table Indexed) :=
  let ids := scan.order ((t.1.filter u.hits).map id)
  (setRows id u.set ids t).map fun t' => (ids.filterMap fun i => t'.1.find? fun r => id r = i, t')

/-- `INSERT`; `none` is a unique violation. -/
def insert (r : Row) (t : Table Indexed) : Option (Table Indexed) :=
  if h : Indexed (t.1 ++ [r]) then some ⟨_, h⟩ else none

variable {id} {set : Row → Row} {f : Row → β} {t t' : Table Indexed} {ids : List Id}
variable {scan : Scan Id} {u : Bulk.Update Row} {returned : List Row} {r : Row}

theorem map_setRow (hf : ∀ r, f (set r) = f r) (i : Id) (rows : List Row) :
    (setRow id set i rows).map f = rows.map f := by
  unfold setRow
  rw [List.map_map]
  refine List.map_congr_left fun r _ => ?_
  change f (if id r = i then set r else r) = f r
  split
  · exact hf r
  · rfl

/-- What no SET clause changes stays, row by row. -/
theorem map_setRows (hf : ∀ r, f (set r) = f r) (h : setRows id set ids t = some t') :
    t'.1.map f = t.1.map f := by
  induction ids generalizing t with
  | nil =>
    cases h
    rfl
  | cons i ids ih =>
    unfold setRows at h
    split at h
    · rw [ih h]
      exact map_setRow hf i t.1
    · cases h

/-- The rows once those under `ids` are set. -/
def setAll (id : Row → Id) (set : Row → Row) (ids : List Id) (rows : List Row) : List Row :=
  rows.map fun r => if id r ∈ ids then set r else r

theorem map_setAll (hf : ∀ r, f (set r) = f r) (rows : List Row) :
    (setAll id set ids rows).map f = rows.map f := by
  unfold setAll
  rw [List.map_map]
  refine List.map_congr_left fun r _ => ?_
  change f (if id r ∈ ids then set r else r) = f r
  split
  · exact hf r
  · rfl

theorem setAll_nil (rows : List Row) : setAll id set [] rows = rows := by
  simp [setAll]

theorem setAll_setRow (hid : ∀ r, id (set r) = id r) {i : Id} (hi : i ∉ ids) (rows : List Row) :
    setAll id set ids (setRow id set i rows) = setAll id set (i :: ids) rows := by
  unfold setAll setRow
  rw [List.map_map]
  refine List.map_congr_left fun r _ => ?_
  simp only [Function.comp_apply, List.mem_cons]
  by_cases hr : id r = i
  · have hnot : id (set r) ∉ ids := by rwa [hid, hr]
    rw [if_pos hr, if_neg hnot, if_pos (.inl hr)]
  · rw [if_neg hr]
    simp only [hr, false_or]

/-- The rows are set one after another, and the indexes hold after each. -/
theorem setRows_iff (hid : ∀ r, id (set r) = id r) (hn : ids.Nodup) :
    setRows id set ids t = some t' ↔
      (∀ done, done <+: ids → Indexed (setAll id set done t.1)) ∧ t'.1 = setAll id set ids t.1 := by
  induction ids generalizing t with
  | nil =>
    simp only [setRows, Option.some.injEq, List.prefix_nil, forall_eq, setAll_nil]
    constructor
    · rintro rfl
      exact ⟨t.2, rfl⟩
    · rintro ⟨-, h⟩
      exact (Subtype.ext h).symm
  | cons i ids ih =>
    obtain ⟨hi, hn⟩ := List.nodup_cons.mp hn
    have hone : setRow id set i t.1 = setAll id set [i] t.1 := by
      simp only [setRow, setAll, List.mem_singleton]
    unfold setRows
    by_cases hvalid : Indexed (setRow id set i t.1)
    · rw [dif_pos hvalid, ih hn, setAll_setRow hid hi]
      refine and_congr_left fun _ => ⟨fun h done hdone => ?_, fun h done hdone => ?_⟩
      · cases done with
        | nil =>
          rw [setAll_nil]
          exact t.2
        | cons j done =>
          obtain ⟨rfl, htail⟩ := List.cons_prefix_cons.mp hdone
          have hj : j ∉ done := fun hmem => hi (htail.subset hmem)
          rw [← setAll_setRow hid hj]
          exact h done htail
      · have hj : i ∉ done := fun hmem => hi (hdone.subset hmem)
        have hset : Indexed (setAll id set (i :: done) t.1) :=
          h (i :: done) (List.cons_prefix_cons.mpr ⟨rfl, hdone⟩)
        rwa [← setAll_setRow hid hj] at hset
    · rw [dif_neg hvalid]
      refine ⟨nofun, fun h => absurd ?_ hvalid⟩
      rw [hone]
      exact h.1 [i] (List.cons_prefix_cons.mpr ⟨rfl, List.nil_prefix⟩)

/-! ## Partial indexes -/

theorem map_update (hf : ∀ r, f (u.set r) = f r) (h : update id scan u t = some (returned, t')) :
    t'.1.map f = t.1.map f := by
  obtain ⟨t'', hset, heq⟩ := Option.map_eq_some_iff.mp h
  cases heq
  exact map_setRows hf hset

/-- A row that is returned is in the table, and the UPDATE hit the one with its id. -/
theorem mem_returned (h : update id scan u t = some (returned, t')) (hr : r ∈ returned) :
    r ∈ t'.1 ∧ ∃ old ∈ t.1, u.hits old ∧ id old = id r := by
  obtain ⟨t'', hset, heq⟩ := Option.map_eq_some_iff.mp h
  cases heq
  obtain ⟨i, hi, hfind⟩ := List.mem_filterMap.mp hr
  obtain ⟨old, hold, rfl⟩ := List.mem_map.mp ((scan.perm _).mem_iff.mp hi)
  have hid : id r = id old := by simpa using List.find?_some hfind
  exact ⟨List.mem_of_find?_eq_some hfind, old, (List.mem_filter.mp hold).1,
    (List.mem_filter.mp hold).2, hid.symm⟩

/-- A row that the UPDATE hit is returned in its new version. -/
theorem exists_returned (hid : ∀ r, id (u.set r) = id r)
    (h : update id scan u t = some (returned, t')) (hr : r ∈ t.1) (hhits : u.hits r = true) :
    ∃ new ∈ returned, id new = id r := by
  have hids : t'.1.map id = t.1.map id := map_update hid h
  obtain ⟨t'', hset, heq⟩ := Option.map_eq_some_iff.mp h
  cases heq
  have hmem : id r ∈ t'.1.map id := hids ▸ List.mem_map_of_mem hr
  obtain ⟨r', hr', hid'⟩ := List.mem_map.mp hmem
  obtain ⟨new, hnew⟩ : ∃ new, (t'.1.find? fun new => id new = id r) = some new :=
    Option.isSome_iff_exists.mp (List.find?_isSome.mpr ⟨r', hr', by simpa using hid'⟩)
  have hi : id r ∈ scan.order ((t.1.filter u.hits).map id) :=
    (scan.perm _).mem_iff.mpr (List.mem_map_of_mem (List.mem_filter.mpr ⟨hr, hhits⟩))
  refine ⟨new, List.mem_filterMap.mpr ⟨id r, hi, hnew⟩, ?_⟩
  simpa using List.find?_some hnew

/-- The UPDATE succeeds when the indexes hold all along the scan. -/
theorem update_iff (hid : ∀ r, id (u.set r) = id r) (hn : (t.1.map id).Nodup) :
    (∃ returned, update id scan u t = some (returned, t')) ↔
      (∀ done, done <+: scan.order ((t.1.filter u.hits).map id) →
        Indexed (setAll id u.set done t.1)) ∧
      t'.1 = setAll id u.set (scan.order ((t.1.filter u.hits).map id)) t.1 := by
  have hids : (scan.order ((t.1.filter u.hits).map id)).Nodup :=
    (scan.perm _).nodup_iff.mpr (hn.sublist (List.filter_sublist.map id))
  rw [← setRows_iff hid hids]
  constructor
  · rintro ⟨returned, h⟩
    obtain ⟨t'', hset, heq⟩ := Option.map_eq_some_iff.mp h
    cases heq
    exact hset
  · intro hset
    exact ⟨_, Option.map_eq_some_iff.mpr ⟨t', hset, rfl⟩⟩

end IndexedRows
