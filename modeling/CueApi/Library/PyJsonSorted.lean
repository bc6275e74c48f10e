import CueApi.Library.PyJsonLoaded

/-! `json.dumps(x, sort_keys=True)`: it writes the value with its keys sorted, and reading that back and
writing it again gives the same text. -/

namespace PyJson

/-- `json.dumps(x, sort_keys=True)`. -/
def sortedKeys : Style := { plain with sortKeys := true }

/-- `sorted` on items, by their keys. -/
def sortEntries {α : Type} (entries : List (Text × α)) : List (Text × α) :=
  entries.mergeSort fun x y => x.1 ≤ y.1

section Sorting

variable {α β : Type}

theorem sortEntries_perm (entries : List (Text × α)) : (sortEntries entries).Perm entries :=
  List.mergeSort_perm _ _

theorem sortEntries_map (f : α → β) (entries : List (Text × α)) :
    (sortEntries entries).map (Prod.map id f) = sortEntries (entries.map (Prod.map id f)) :=
  List.map_mergeSort fun _ _ _ _ => rfl

theorem sortEntries_idem (entries : List (Text × α)) :
    sortEntries (sortEntries entries) = sortEntries entries := by
  refine List.mergeSort_of_pairwise (List.pairwise_mergeSort (fun x y z hxy hyz => ?_) (fun x y => ?_) _)
  · simp only [decide_eq_true_eq] at *
    exact le_trans hxy hyz
  · simpa using le_total x.1 y.1

end Sorting

mutual

/-- The value with the keys of its dictionaries in order. -/
def Value.sorted : Value → Value
  | .list items => .list (sortedItems items)
  | .dict entries => .dict (sortEntries (sortedEntries entries))
  | .null => .null
  | .bool b => .bool b
  | .int n => .int n
  | .float x => .float x
  | .str s => .str s

def sortedItems : List Value → List Value
  | [] => []
  | x :: xs => x.sorted :: sortedItems xs

def sortedEntries : List (Text × Value) → List (Text × Value)
  | [] => []
  | (key, x) :: xs => (key, x.sorted) :: sortedEntries xs

end

theorem sortedEntries_eq (entries : List (Text × Value)) :
    sortedEntries entries = entries.map (Prod.map id Value.sorted) := by
  induction entries with
  | nil => rfl
  | cons entry entries ih => exact congrArg ((entry.1, entry.2.sorted) :: ·) ih

theorem writeEntries_eq (style : Style) (entries : List (Text × Value)) :
    style.writeEntries entries = entries.map (Prod.map id style.write) := by
  induction entries with
  | nil => rfl
  | cons entry entries ih => exact congrArg ((entry.1, style.write entry.2) :: ·) ih

/-! ## What is written -/

mutual

/-- Sorting while writing is writing what has been sorted. -/
theorem write_sortedKeys : (x : Value) → sortedKeys.write x = plain.write x.sorted
  | .null | .bool _ | .int _ | .float _ | .str _ => rfl
  | .list items => by
    rw [Value.sorted, Style.write, Style.write, writeItems_sortedKeys items]
    rfl
  | .dict entries => by
    have hmembers : sortedKeys.members (sortedKeys.writeEntries entries) =
        plain.members (plain.writeEntries (sortEntries (sortedEntries entries))) := by
      have hsort : sortEntries (plain.writeEntries (sortedEntries entries)) =
          plain.writeEntries (sortEntries (sortedEntries entries)) := by
        rw [writeEntries_eq, writeEntries_eq, sortEntries_map]
      rw [writeEntries_sortedKeys entries, ← hsort]
      rfl
    rw [Value.sorted, Style.write, Style.write, hmembers]
    rfl

theorem writeItems_sortedKeys : (xs : List Value) →
    sortedKeys.writeItems xs = plain.writeItems (sortedItems xs)
  | [] => rfl
  | x :: xs => by
    rw [sortedItems, Style.writeItems, Style.writeItems, write_sortedKeys x, writeItems_sortedKeys xs]

theorem writeEntries_sortedKeys : (xs : List (Text × Value)) →
    sortedKeys.writeEntries xs = plain.writeEntries (sortedEntries xs)
  | [] => rfl
  | (key, x) :: xs => by
    rw [sortedEntries, Style.writeEntries, Style.writeEntries, write_sortedKeys x,
      writeEntries_sortedKeys xs]

end

mutual

theorem sorted_idem : (x : Value) → x.sorted.sorted = x.sorted
  | .null | .bool _ | .int _ | .float _ | .str _ => rfl
  | .list items => by
    rw [Value.sorted, Value.sorted, sortedItems_idem items]
  | .dict entries => by
    have hmap : sortedEntries (sortEntries (sortedEntries entries)) =
        sortEntries (sortedEntries (sortedEntries entries)) := by
      rw [sortedEntries_eq (sortEntries _), sortEntries_map, ← sortedEntries_eq]
    rw [Value.sorted, Value.sorted, hmap, sortedEntries_idem entries, sortEntries_idem]

theorem sortedItems_idem : (xs : List Value) → sortedItems (sortedItems xs) = sortedItems xs
  | [] => rfl
  | x :: xs => by rw [sortedItems, sortedItems, sorted_idem x, sortedItems_idem xs]

theorem sortedEntries_idem : (xs : List (Text × Value)) →
    sortedEntries (sortedEntries xs) = sortedEntries xs
  | [] => rfl
  | (key, x) :: xs => by rw [sortedEntries, sortedEntries, sorted_idem x, sortedEntries_idem xs]

end

/-- What is written of a value does not tell whether it was sorted. -/
theorem write_sorted (x : Value) : sortedKeys.write x.sorted = sortedKeys.write x := by
  rw [write_sortedKeys, write_sortedKeys, sorted_idem]

/-! ## What is read -/

theorem nestingEntries_le {entries : List (Text × Value)} {n : Nat} :
    nestingEntries entries ≤ n ↔ ∀ entry ∈ entries, entry.2.nesting ≤ n := by
  induction entries with
  | nil => simp [nestingEntries]
  | cons entry entries ih => simp [nestingEntries, ih]

theorem nestingEntries_perm {xs ys : List (Text × Value)} (h : xs.Perm ys) :
    nestingEntries xs = nestingEntries ys := by
  refine Nat.le_antisymm (nestingEntries_le.mpr fun entry hm => ?_)
    (nestingEntries_le.mpr fun entry hm => ?_)
  · exact nestingEntries_le.mp (Nat.le_refl _) entry (h.mem_iff.mp hm)
  · exact nestingEntries_le.mp (Nat.le_refl _) entry (h.mem_iff.mpr hm)

theorem anyTextEntries_iff {p : Text → Bool} {entries : List (Text × Value)} :
    anyTextEntries p entries = true ↔ ∃ entry ∈ entries, (p entry.1 || entry.2.anyText p) = true := by
  induction entries with
  | nil => simp [anyTextEntries]
  | cons entry entries ih => simp [anyTextEntries, ih, or_assoc]

theorem anyTextEntries_perm {p : Text → Bool} {xs ys : List (Text × Value)} (h : xs.Perm ys) :
    anyTextEntries p xs = anyTextEntries p ys := by
  rw [Bool.eq_iff_iff, anyTextEntries_iff, anyTextEntries_iff]
  simp only [h.mem_iff]

theorem loadedEntries_iff {floats : Floats} {entries : List (Text × Value)} :
    LoadedEntries floats entries ↔ ∀ entry ∈ entries, entry.2.Loaded floats := by
  induction entries with
  | nil => simp [LoadedEntries]
  | cons entry entries ih => simp [LoadedEntries, ih]

mutual

theorem nesting_sorted : (x : Value) → x.sorted.nesting = x.nesting
  | .null | .bool _ | .int _ | .float _ | .str _ => rfl
  | .list items => by rw [Value.sorted, Value.nesting, Value.nesting, nesting_sortedItems items]
  | .dict entries => by
    rw [Value.sorted, Value.nesting, Value.nesting, nestingEntries_perm (sortEntries_perm _),
      nesting_sortedEntries entries]

theorem nesting_sortedItems : (xs : List Value) → nestingItems (sortedItems xs) = nestingItems xs
  | [] => rfl
  | x :: xs => by rw [sortedItems, nestingItems, nestingItems, nesting_sorted x, nesting_sortedItems xs]

theorem nesting_sortedEntries : (xs : List (Text × Value)) →
    nestingEntries (sortedEntries xs) = nestingEntries xs
  | [] => rfl
  | (key, x) :: xs => by
    rw [sortedEntries, nestingEntries, nestingEntries, nesting_sorted x, nesting_sortedEntries xs]

end

mutual

theorem anyText_sorted (p : Text → Bool) : (x : Value) → x.sorted.anyText p = x.anyText p
  | .null | .bool _ | .int _ | .float _ | .str _ => rfl
  | .list items => anyText_sortedItems p items
  | .dict entries => by
    rw [Value.sorted, Value.anyText, Value.anyText, anyTextEntries_perm (sortEntries_perm _),
      anyText_sortedEntries p entries]

theorem anyText_sortedItems (p : Text → Bool) : (xs : List Value) →
    anyTextItems p (sortedItems xs) = anyTextItems p xs
  | [] => rfl
  | x :: xs => by
    rw [sortedItems, anyTextItems, anyTextItems, anyText_sorted p x, anyText_sortedItems p xs]

theorem anyText_sortedEntries (p : Text → Bool) : (xs : List (Text × Value)) →
    anyTextEntries p (sortedEntries xs) = anyTextEntries p xs
  | [] => rfl
  | (key, x) :: xs => by
    rw [sortedEntries, anyTextEntries, anyTextEntries, anyText_sorted p x, anyText_sortedEntries p xs]

end

theorem keys_sortedEntries (entries : List (Text × Value)) :
    (sortedEntries entries).map Prod.fst = entries.map Prod.fst := by
  rw [sortedEntries_eq, List.map_map]
  rfl

variable (floats : Floats)

mutual

theorem loaded_sorted : (x : Value) → x.Loaded floats → x.sorted.Loaded floats
  | .null, hx | .bool _, hx | .int _, hx | .float _, hx | .str _, hx => hx
  | .list items, hx => loaded_sortedItems items hx
  | .dict entries, ⟨hkeys, hentries⟩ => by
    have hperm := sortEntries_perm (sortedEntries entries)
    refine ⟨?_, loadedEntries_iff.mpr fun entry hm => ?_⟩
    · rw [(hperm.map Prod.fst).nodup_iff, keys_sortedEntries]
      exact hkeys
    · exact loadedEntries_iff.mp (loaded_sortedEntries entries hentries) entry (hperm.mem_iff.mp hm)

theorem loaded_sortedItems : (xs : List Value) → LoadedItems floats xs →
    LoadedItems floats (sortedItems xs)
  | [], _ => trivial
  | x :: xs, ⟨hx, hxs⟩ => ⟨loaded_sorted x hx, loaded_sortedItems xs hxs⟩

theorem loaded_sortedEntries : (xs : List (Text × Value)) → LoadedEntries floats xs →
    LoadedEntries floats (sortedEntries xs)
  | [], _ => trivial
  | (_, x) :: xs, ⟨hx, hxs⟩ => ⟨loaded_sorted x hx, loaded_sortedEntries xs hxs⟩

end

theorem sortedKeys_ascii (x : Value) : ∀ c ∈ sortedKeys.write x, c.val < 0x80 := by
  rw [write_sortedKeys]
  exact plain_ascii x.sorted

/-- `json.loads(json.dumps(x, sort_keys=True).encode("utf-8"))` of a dictionary with entries. -/
theorem loads_sortedKeys {entries : List (Text × Value)} (hne : entries ≠ []) {levels : Nat}
    (hx : (Value.dict entries).Loaded floats) (hlevels : (Value.dict entries).nesting ≤ levels)
    (hpaired : (Value.dict entries).anyText paired = false) :
    loads floats levels (asciiOctets (sortedKeys.write (.dict entries))) =
      .ok (Value.dict entries).sorted := by
  have hx' := loaded_sorted floats _ hx
  rw [← nesting_sorted] at hlevels
  rw [← anyText_sorted] at hpaired
  rw [write_sortedKeys]
  rw [Value.sorted] at *
  rw [loads_plain floats ?_ hx' hlevels, (reread_eq_iff floats _ hx').mpr hpaired]
  intro hnil
  have hlen := (sortEntries_perm (sortedEntries entries)).length_eq
  rw [hnil, sortedEntries_eq, List.length_map] at hlen
  exact hne (List.length_eq_zero_iff.mp hlen.symm)

end PyJson
