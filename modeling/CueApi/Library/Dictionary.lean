import Mathlib.Data.List.Nodup
import Mathlib.Data.List.Perm.Basic

/-! Dictionaries that keep the order of insertion, as Python's do, and what is left of one that is
updated by another when a reader does not tell all keys apart. -/

namespace Dictionary

variable {K V G : Type} [DecidableEq K]

structure Dict (K V : Type) where
  entries : List (K × V)
  nodup : (entries.map Prod.fst).Nodup

def Dict.keys (d : Dict K V) : List K := d.entries.map Prod.fst

def Dict.get? (d : Dict K V) (k : K) : Option V := d.entries.lookup k

variable {d c : Dict K V} {k : K} {v w : V}

omit [DecidableEq K] in
theorem Dict.mem_keys : k ∈ d.keys ↔ ∃ v, (k, v) ∈ d.entries := by
  simp [Dict.keys]

omit [DecidableEq K] in
/-- A key has one value. -/
theorem Dict.unique (hv : (k, v) ∈ d.entries) (hw : (k, w) ∈ d.entries) : v = w :=
  congrArg Prod.snd (List.inj_on_of_nodup_map d.nodup hv hw rfl)

theorem Dict.get?_eq_some : d.get? k = some v ↔ (k, v) ∈ d.entries := by
  obtain ⟨entries, nodup⟩ := d
  unfold Dict.get?
  induction entries with
  | nil => simp
  | cons e entries ih =>
    rw [List.map_cons, List.nodup_cons] at nodup
    obtain ⟨j, u⟩ := e
    by_cases hk : k = j
    · subst hk
      have hk : k ∉ entries.map Prod.fst := nodup.1
      have hnot : (k, v) ∉ entries := fun hm => hk (List.mem_map_of_mem (f := Prod.fst) hm)
      simp [hnot, eq_comm]
    · simp only [List.lookup_cons, List.mem_cons, Prod.mk.injEq, hk, false_and, false_or,
        beq_eq_false_iff_ne.mpr hk]
      exact ih nodup.2

/-- `d.update(c)`: the keys of `d` stay in place, those that only `c` has follow. -/
def Dict.update (d c : Dict K V) : Dict K V where
  entries := d.entries.map (fun e => (e.1, (c.get? e.1).getD e.2)) ++
    c.entries.filter fun e => e.1 ∉ d.keys
  nodup := by
    rw [List.map_append, List.map_map, List.nodup_append]
    refine ⟨d.nodup, c.nodup.sublist (List.filter_sublist.map Prod.fst), ?_⟩
    rintro k hk j hj rfl
    obtain ⟨e, he, rfl⟩ := List.mem_map.mp hj
    exact of_decide_eq_true (List.mem_filter.mp he).2 hk

theorem Dict.update_empty (hc : c.entries = []) : (d.update c).entries = d.entries := by
  have hget : ∀ k, c.get? k = none := fun k => by rw [Dict.get?, hc, List.lookup_nil]
  simp [Dict.update, hc, hget]

/-- The entries of `c`, and those of `d` whose keys `c` lacks. -/
theorem Dict.mem_update : (k, v) ∈ (d.update c).entries ↔
    (k, v) ∈ c.entries ∨ ((k, v) ∈ d.entries ∧ k ∉ c.keys) := by
  have hnone : k ∉ c.keys ↔ c.get? k = none := by
    rw [Option.eq_none_iff_forall_ne_some, Dict.mem_keys, not_exists]
    simp only [Ne, Dict.get?_eq_some]
  simp only [Dict.update, List.mem_append, List.mem_map, List.mem_filter, decide_eq_true_eq,
    Prod.mk.injEq]
  constructor
  · rintro (⟨⟨j, u⟩, hm, rfl, rfl⟩ | ⟨hm, -⟩)
    · dsimp only
      cases hget : c.get? j with
      | none => exact .inr ⟨hm, hnone.mpr hget⟩
      | some w => exact .inl (Dict.get?_eq_some.mp hget)
    · exact .inl hm
  · rintro (hm | ⟨hm, hno⟩)
    · by_cases hk : k ∈ d.keys
      · obtain ⟨u, hu⟩ := Dict.mem_keys.mp hk
        refine .inl ⟨(k, u), hu, rfl, ?_⟩
        rw [Dict.get?_eq_some.mpr hm]
        rfl
      · exact .inr ⟨hm, hk⟩
    · refine .inl ⟨(k, v), hm, rfl, ?_⟩
      rw [hnone.mp hno]
      rfl

theorem Dict.keys_update (hk : k ∈ d.keys) : k ∈ (d.update c).keys := by
  obtain ⟨v, hv⟩ := Dict.mem_keys.mp hk
  by_cases hck : k ∈ c.keys
  · obtain ⟨w, hw⟩ := Dict.mem_keys.mp hck
    exact Dict.mem_keys.mpr ⟨w, Dict.mem_update.mpr (.inl hw)⟩
  · exact Dict.mem_keys.mpr ⟨v, Dict.mem_update.mpr (.inr ⟨hv, hck⟩)⟩

/-! ## Readers that fold keys -/

variable [DecidableEq G] (fold : K → G)

/-- The entries under the keys that the reader takes for `k`. -/
def under (k : K) (l : List (K × V)) : List (K × V) := l.filter fun e => fold e.1 = fold k

variable {fold}

/-- An entry of `d` that no other key of `d` is taken for is the only one under its key after an
update exactly when every entry of `c` that is taken for it equals it. -/
theorem under_update_iff (hd : (k, v) ∈ d.entries)
    (honly : ∀ j ∈ d.keys, fold j = fold k → j = k) :
    (∃ j, under fold k (d.update c).entries = [(j, v)]) ↔
      ∀ e ∈ c.entries, fold e.1 = fold k → e = (k, v) := by
  have hmem {j : K} {w : V} : (j, w) ∈ under fold k (d.update c).entries ↔
      (j, w) ∈ (d.update c).entries ∧ fold j = fold k := by
    simp [under, List.mem_filter]
  constructor
  · rintro ⟨j, hj⟩ ⟨i, w⟩ hc hfold
    -- The key itself stays in the dictionary, so it is the one that is left.
    obtain ⟨u, hu⟩ := Dict.mem_keys.mp (Dict.keys_update (c := c) (Dict.mem_keys.mpr ⟨v, hd⟩))
    have hu := hmem.mpr ⟨hu, rfl⟩
    have hi := hmem.mpr ⟨Dict.mem_update.mpr (.inl hc), hfold⟩
    rw [hj, List.mem_singleton] at hu hi
    rw [hi, (Prod.mk.inj hu).1]
  · intro h
    refine ⟨k, ?_⟩
    have hnodup : (under fold k (d.update c).entries).Nodup :=
      (List.Nodup.of_map _ (d.update c).nodup).filter _
    refine List.perm_singleton.mp ((List.perm_ext_iff_of_nodup hnodup (List.nodup_singleton _)).mpr ?_)
    rintro ⟨j, w⟩
    rw [hmem, List.mem_singleton, Dict.mem_update]
    constructor
    · rintro ⟨hc | ⟨hm, -⟩, hfold⟩
      · exact h _ hc hfold
      · obtain rfl := honly j (Dict.mem_keys.mpr ⟨w, hm⟩) hfold
        rw [Dict.unique hm hd]
    · rintro ⟨rfl, rfl⟩
      refine ⟨?_, rfl⟩
      by_cases hck : k ∈ c.keys
      · obtain ⟨w, hw⟩ := Dict.mem_keys.mp hck
        rw [← (Prod.mk.inj (h _ hw rfl)).2]
        exact .inl hw
      · exact .inr ⟨hd, hck⟩

/-- Under a key, only entries of `c` are left exactly when `c` has all keys of `d` that are taken for
it. -/
theorem replaced_iff (fold : K → G) (d c : Dict K V) (k : K) :
    (∀ e ∈ under fold k (d.update c).entries, e ∈ c.entries) ↔
      ∀ j ∈ d.keys, fold j = fold k → j ∈ c.keys := by
  simp only [under, List.mem_filter, decide_eq_true_eq]
  constructor
  · intro h j hj hfold
    obtain ⟨w, hw⟩ := Dict.mem_keys.mp hj
    by_contra hno
    exact hno (Dict.mem_keys.mpr ⟨w, h (j, w) ⟨Dict.mem_update.mpr (.inr ⟨hw, hno⟩), hfold⟩⟩)
  · rintro h ⟨j, w⟩ ⟨hm, hfold⟩
    rcases Dict.mem_update.mp hm with hm | ⟨hm, hno⟩
    · exact hm
    · exact absurd (h j (Dict.mem_keys.mpr ⟨w, hm⟩) hfold) hno

end Dictionary
