import Mathlib.Data.List.Basic
import Mathlib.Logic.Function.Basic

/-! Transactions under READ COMMITTED, over any tables. A write locks the keys
it names until the transaction ends; its effect waits in the transaction's
buffer, newest write first, and reaches the tables at commit. Readers see the
committed tables and their own buffer. -/

namespace ReadCommitted

/-- What the store needs to know of a database: the rows by key, the keys a
write locks, its effect, and that a write changes only rows it locks. -/
structure Schema (K T W : Type) where
  Row : K → Type
  row : (k : K) → T → Row k
  keys : W → List K
  apply : W → T → T
  row_apply : ∀ w t k, k ∉ keys w → row k (apply w t) = row k t

variable {K T W P : Type} {S : Schema K T W}

namespace Schema

/-- The tables after a buffer of writes, the newest at the head. -/
def applyAll (S : Schema K T W) (ws : List W) (t : T) : T := ws.foldr S.apply t

@[simp] theorem applyAll_nil (t : T) : S.applyAll [] t = t := rfl

@[simp] theorem applyAll_cons (w : W) (ws : List W) (t : T) :
    S.applyAll (w :: ws) t = S.apply w (S.applyAll ws t) := rfl

theorem applyAll_append (ws us : List W) (t : T) :
    S.applyAll (ws ++ us) t = S.applyAll ws (S.applyAll us t) := by
  simp [applyAll]

theorem row_applyAll (ws : List W) (t : T) (k : K)
    (hk : ∀ w ∈ ws, k ∉ S.keys w) : S.row k (S.applyAll ws t) = S.row k t := by
  induction ws with
  | nil => rfl
  | cons w ws ih =>
    rw [applyAll_cons, S.row_apply w _ k (hk w (by simp))]
    exact ih fun u hu => hk u (by simp [hu])

/-- What a view `f` of the tables takes from a buffer: the writes that touch it. -/
theorem applyAll_filter {α : Type} {f : T → α} {q : W → Bool}
    (hskip : ∀ w t, q w = false → f (S.apply w t) = f t)
    (hcongr : ∀ w t t', f t = f t' → f (S.apply w t) = f (S.apply w t'))
    (ws : List W) (t : T) : f (S.applyAll ws t) = f (S.applyAll (ws.filter q) t) := by
  induction ws with
  | nil => rfl
  | cons w ws ih =>
    cases hw : q w with
    | true =>
      rw [List.filter_cons_of_pos hw, applyAll_cons, applyAll_cons]
      exact hcongr w _ _ ih
    | false =>
      rw [List.filter_cons_of_neg (by simp [hw]), applyAll_cons, hskip w _ hw]
      exact ih

end Schema

/-- A loop over rows with distinct keys writes each row in one iteration. -/
theorem filter_flatMap_of_nodup {α κ : Type} {f : α → List W} {key : α → Option κ} {q : W → Bool}
    {x : κ} {items : List α} (hn : (items.filterMap key).Nodup)
    (hf : ∀ i ∈ items, key i ≠ some x → (f i).filter q = []) :
    (items.flatMap f).filter q = [] ∨
      ∃ i ∈ items, key i = some x ∧ (items.flatMap f).filter q = (f i).filter q := by
  induction items with
  | nil => exact .inl rfl
  | cons i items ih =>
    have hf' : ∀ j ∈ items, key j ≠ some x → (f j).filter q = [] :=
      fun j hj => hf j (by simp [hj])
    have hn' : (items.filterMap key).Nodup := by
      cases hk : key i with
      | none => simpa [hk] using hn
      | some y => simp only [List.filterMap_cons, hk, List.nodup_cons] at hn; exact hn.2
    simp only [List.flatMap_cons, List.filter_append]
    by_cases hx : key i = some x
    · have hrest : (items.flatMap f).filter q = [] := by
        rcases ih hn' hf' with h | ⟨j, hj, hjx, -⟩
        · exact h
        · simp only [List.filterMap_cons, hx, List.nodup_cons] at hn
          exact absurd (List.mem_filterMap.mpr ⟨j, hj, hjx⟩) hn.1
      exact .inr ⟨i, by simp, hx, by simp [hrest]⟩
    · have hi := hf i (by simp) hx
      rcases ih hn' hf' with h | ⟨j, hj, hjx, h⟩
      · exact .inl (by simp [hi, h])
      · exact .inr ⟨j, by simp [hj], hjx, by simp [hi, h]⟩

/-- Committed tables, lock owners and write buffers. A buffered write always
holds the locks of its keys. -/
structure Store (S : Schema K T W) (P : Type) where
  tables : T
  locks : K → Option P
  buf : P → List W
  held : ∀ p, ∀ w ∈ buf p, ∀ k ∈ S.keys w, locks k = some p

namespace Store

def start (S : Schema K T W) (P : Type) (t : T) : Store S P :=
  ⟨t, fun _ => none, fun _ => [], by simp⟩

/-- The tables as a statement of `p` sees them. -/
def view (s : Store S P) (p : P) : T := S.applyAll (s.buf p) s.tables

section Rows

variable {s s' : Store S P} {p : P} {k : K}

/-- A row that `p` has not locked it sees as it is committed. -/
theorem view_row_free (hl : s.locks k ≠ some p) : S.row k (s.view p) = S.row k s.tables :=
  S.row_applyAll (s.buf p) s.tables k fun w hw hk => hl (s.held p w hw k hk)

/-- What `p` sees of a row depends on the row and on its buffer. -/
theorem view_row_congr (hb : s'.buf p = s.buf p) (hrow : S.row k s'.tables = S.row k s.tables)
    (hcongr : ∀ w t t', S.row k t' = S.row k t → S.row k (S.apply w t') = S.row k (S.apply w t)) :
    S.row k (s'.view p) = S.row k (s.view p) := by
  unfold view
  rw [hb]
  induction s.buf p with
  | nil => exact hrow
  | cons w ws ih => exact hcongr w _ _ ih

/-- After a step of the others, which keeps the buffer of `p` and the rows it has locked. -/
theorem view_row_cases (hb : s'.buf p = s.buf p)
    (hrow : s.locks k = some p → S.row k s'.tables = S.row k s.tables)
    (hcongr : ∀ w t t', S.row k t' = S.row k t → S.row k (S.apply w t') = S.row k (S.apply w t)) :
    (S.row k (s'.view p) = S.row k (s.view p) ∧ S.row k s'.tables = S.row k s.tables) ∨
      S.row k (s'.view p) = S.row k s'.tables := by
  by_cases hl : s.locks k = some p
  · exact .inl ⟨view_row_congr hb (hrow hl) hcongr, hrow hl⟩
  · refine .inr (S.row_applyAll (s'.buf p) s'.tables k fun w hw hk => ?_)
    rw [hb] at hw
    exact hl (s.held p w hw k hk)

end Rows

/-- No other transaction holds the lock of `k`. -/
def Free (s : Store S P) (p : P) (k : K) : Prop := s.locks k = none ∨ s.locks k = some p

instance [DecidableEq P] (s : Store S P) (p : P) (k : K) : Decidable (s.Free p k) :=
  inferInstanceAs (Decidable (_ ∨ _))

/-- What a step of anyone else keeps for `p`: its buffer, its locks, and the
committed rows it has locked. -/
structure Kept (p : P) (s s' : Store S P) : Prop where
  buf : s'.buf p = s.buf p
  locks : ∀ k, s.locks k = some p → s'.locks k = some p
  rows : ∀ k, s.locks k = some p → S.row k s'.tables = S.row k s.tables

theorem Kept.refl (p : P) (s : Store S P) : Kept p s s :=
  ⟨rfl, fun _ h => h, fun _ _ => rfl⟩

theorem Kept.trans {p : P} {s t u : Store S P} (h : Kept p s t) (h' : Kept p t u) :
    Kept p s u :=
  ⟨h'.buf.trans h.buf, fun k hk => h'.locks k (h.locks k hk),
    fun k hk => (h'.rows k (h.locks k hk)).trans (h.rows k hk)⟩

variable [DecidableEq P]

private theorem held_release (s : Store S P) (p : P) :
    ∀ q, ∀ w ∈ Function.update s.buf p [] q, ∀ k ∈ S.keys w,
      (if s.locks k = some p then none else s.locks k) = some q := by
  intro q w hw k hk
  by_cases hq : q = p
  · subst hq
    simp at hw
  · rw [Function.update_of_ne hq] at hw
    have hl := s.held q w hw k hk
    simp [hl, hq]

def commit (s : Store S P) (p : P) : Store S P where
  tables := s.view p
  locks k := if s.locks k = some p then none else s.locks k
  buf := Function.update s.buf p []
  held := held_release s p

def rollback (s : Store S P) (p : P) : Store S P where
  tables := s.tables
  locks k := if s.locks k = some p then none else s.locks k
  buf := Function.update s.buf p []
  held := held_release s p

theorem commit_kept (s : Store S P) {p q : P} (hq : q ≠ p) : Kept q s (s.commit p) := by
  refine ⟨Function.update_of_ne hq _ _, fun k hk => by simp [commit, hk, hq], fun k hk => ?_⟩
  apply S.row_applyAll
  intro w hw hkw
  have hp := s.held p w hw k hkw
  rw [hk] at hp
  exact hq (Option.some.inj hp)

theorem rollback_kept (s : Store S P) {p q : P} (hq : q ≠ p) : Kept q s (s.rollback p) :=
  ⟨Function.update_of_ne hq _ _, fun k hk => by simp [rollback, hk, hq], fun _ _ => rfl⟩

variable [DecidableEq K]

/-- Lock the keys `ks` for `p`; `none` while another transaction holds one. -/
def lock (s : Store S P) (p : P) (ks : List K) : Option (Store S P) :=
  if h : ∀ k ∈ ks, s.Free p k then
    some { s with
      locks := fun k => if k ∈ ks then some p else s.locks k
      held := by
        intro q w hw k hk
        have hq := s.held q w hw k hk
        by_cases hks : k ∈ ks
        · rcases h k hks with h | h <;> simp_all
        · simpa [hks] using hq }
  else none

/-- Lock the keys of `w` and append it to the buffer of `p`. -/
def write (s : Store S P) (p : P) (w : W) : Option (Store S P) :=
  if h : ∀ k ∈ S.keys w, s.Free p k then
    some {
      tables := s.tables
      locks := fun k => if k ∈ S.keys w then some p else s.locks k
      buf := Function.update s.buf p (w :: s.buf p)
      held := by
        intro q u hu k hk
        by_cases hq : q = p
        · subst hq
          rw [Function.update_self, List.mem_cons] at hu
          rcases hu with rfl | hu
          · simp [hk]
          · simp [s.held q u hu k hk]
        · rw [Function.update_of_ne hq] at hu
          have hl := s.held q u hu k hk
          by_cases hks : k ∈ S.keys w
          · rcases h k hks with h | h <;> simp_all
          · simpa [hks] using hl }
  else none

theorem lock_eq {s s' : Store S P} {p : P} {ks : List K} (h : s.lock p ks = some s') :
    s'.tables = s.tables ∧ s'.buf = s.buf ∧
      (∀ k, s'.locks k = if k ∈ ks then some p else s.locks k) ∧ ∀ k ∈ ks, s.Free p k := by
  unfold lock at h
  split at h
  · cases h
    exact ⟨rfl, rfl, fun _ => rfl, by assumption⟩
  · cases h

theorem write_eq {s s' : Store S P} {p : P} {w : W} (h : s.write p w = some s') :
    s'.tables = s.tables ∧ s'.buf = Function.update s.buf p (w :: s.buf p) ∧
      (∀ k, s'.locks k = if k ∈ S.keys w then some p else s.locks k) ∧
      ∀ k ∈ S.keys w, s.Free p k := by
  unfold write at h
  split at h
  · cases h
    exact ⟨rfl, rfl, fun _ => rfl, by assumption⟩
  · cases h

omit [DecidableEq P] in
private theorem locks_other {s s' : Store S P} {p q : P} {ks : List K} (hq : q ≠ p)
    (hl : ∀ k, s'.locks k = if k ∈ ks then some p else s.locks k)
    (hf : ∀ k ∈ ks, s.Free p k) (k : K) (hk : s.locks k = some q) : s'.locks k = some q := by
  rw [hl]
  by_cases hks : k ∈ ks
  · rcases hf k hks with h | h
    · rw [h] at hk
      cases hk
    · rw [h] at hk
      exact absurd (Option.some.inj hk).symm hq
  · simpa [hks] using hk

theorem lock_kept {s s' : Store S P} {p q : P} {ks : List K} (h : s.lock p ks = some s')
    (hq : q ≠ p) : Kept q s s' := by
  obtain ⟨ht, hb, hl, hf⟩ := lock_eq h
  exact ⟨by rw [hb], locks_other hq hl hf, fun k _ => by rw [ht]⟩

theorem write_kept {s s' : Store S P} {p q : P} {w : W} (h : s.write p w = some s')
    (hq : q ≠ p) : Kept q s s' := by
  obtain ⟨ht, hb, hl, hf⟩ := write_eq h
  exact ⟨by rw [hb, Function.update_of_ne hq], locks_other hq hl hf, fun k _ => by rw [ht]⟩

end Store

end ReadCommitted
