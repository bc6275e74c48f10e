/-! A database session around one request: statements on what the transaction sees, an object that is
changed in memory and flushed at the commit, rollbacks, and the rollback with which the session closes.
A request that commits last leaves nothing behind when it fails. -/

namespace UnitOfWork

/-- `stored` is what is committed, `working` what the transaction sees, `object` the state in memory of
an object that was loaded and changed. -/
structure Session (σ ω : Type) where
  stored : σ
  working : σ
  object : Option ω := none

/-- The code of a request; it raises or answers with `ε`. -/
abbrev Work (σ ω ε α : Type) : Type := ExceptT ε (StateM (Session σ ω)) α

variable {σ ω ε α β : Type}

def start (t : σ) : Session σ ω := ⟨t, t, none⟩

/-- The session closes: what is not committed is rolled back. -/
def Session.close (s : Session σ ω) : Session σ ω := start s.stored

def Work.on (m : Work σ ω ε α) (s : Session σ ω) : Except ε α × Session σ ω := m.run.run s

/-- A request in a session of its own. -/
def request (m : Work σ ω ε α) (t : σ) : Except ε α × Session σ ω :=
  ((m.on (start t)).1, (m.on (start t)).2.close)

/-! ## Statements -/

def select (q : σ → α) : Work σ ω ε α := ExceptT.mk fun s => (.ok (q s.working), s)

/-- A statement that writes, unless the server refuses it. -/
def execute (stmt : σ → Except ε (α × σ)) : Work σ ω ε α := ExceptT.mk fun s =>
  match stmt s.working with
  | .ok (a, t) => (.ok a, { s with working := t })
  | .error e => (.error e, s)

/-- The object has a new state in memory. -/
def assign (x : ω) : Work σ ω ε ω := ExceptT.mk fun s => (.ok x, { s with object := some x })

def rollback : Work σ ω ε Unit := ExceptT.mk fun s => (.ok (), s.close)

/-- What the object has become is flushed, unless the server refuses it, and all is stored. -/
def commit (flush : ω → σ → Except ε σ) : Work σ ω ε Unit := ExceptT.mk fun s =>
  match s.object.elim (.ok s.working) fun x => flush x s.working with
  | .ok t => (.ok (), start t)
  | .error e => (.error e, s.close)

/-! ## How code ends -/

/-- With an error in `E`, or with a value in `Q`. -/
def Ends (E : ε → Session σ ω → Prop) (Q : α → Session σ ω → Prop) (m : Work σ ω ε α)
    (s : Session σ ω) : Prop :=
  (∀ e, (m.on s).1 = .error e → E e (m.on s).2) ∧ ∀ a, (m.on s).1 = .ok a → Q a (m.on s).2

variable {E : ε → Session σ ω → Prop} {Q Q' : α → Session σ ω → Prop} {s : Session σ ω}

theorem ends_pure {a : α} : Ends E Q (pure a) s ↔ Q a s := by
  constructor
  · intro h
    exact h.2 a rfl
  · intro h
    refine ⟨nofun, fun b hb => ?_⟩
    cases hb
    exact h

theorem ends_throw {e : ε} : Ends E Q (throw e) s ↔ E e s := by
  constructor
  · intro h
    exact h.1 e rfl
  · intro h
    refine ⟨fun e' he => ?_, nofun⟩
    cases he
    exact h

theorem on_bind {m : Work σ ω ε β} {f : β → Work σ ω ε α} :
    (m >>= f).on s = match m.on s with
      | (.ok b, s') => (f b).on s'
      | (.error e, s') => (.error e, s') := by
  change ExceptT.bindCont f (m.on s).1 (m.on s).2 = _
  rcases m.on s with ⟨e | b, s'⟩ <;> rfl

/-- The rule of sequences. -/
theorem ends_bind {m : Work σ ω ε β} {f : β → Work σ ω ε α} :
    Ends E Q (m >>= f) s ↔ Ends E (fun b s' => Ends E Q (f b) s') m s := by
  unfold Ends
  rw [on_bind]
  rcases m.on s with ⟨e | b, s'⟩ <;> simp

theorem on_bind_ok {m : Work σ ω ε β} {f : β → Work σ ω ε α} {b : β} (h : (m.on s).1 = .ok b) :
    ((m >>= f).on s).1 = ((f b).on (m.on s).2).1 := by
  rw [on_bind]
  generalize m.on s = r at h
  obtain ⟨result, s'⟩ := r
  cases h
  rfl

theorem on_bind_error {m : Work σ ω ε β} {f : β → Work σ ω ε α} {e : ε}
    (h : (m.on s).1 = .error e) : ((m >>= f).on s).1 = .error e := by
  rw [on_bind]
  generalize m.on s = r at h
  obtain ⟨result, s'⟩ := r
  cases h
  rfl

theorem Ends.mono {E' : ε → Session σ ω → Prop} {m : Work σ ω ε α} (h : Ends E Q m s)
    (hE : ∀ e s', E e s' → E' e s') (hQ : ∀ a s', Q a s' → Q' a s') : Ends E' Q' m s :=
  ⟨fun e he => hE _ _ (h.1 e he), fun a ha => hQ _ _ (h.2 a ha)⟩

theorem ends_select {q : σ → α} : Ends E Q (select q) s ↔ Q (q s.working) s :=
  ends_pure (a := q s.working)

theorem ends_execute {stmt : σ → Except ε (α × σ)} : Ends E Q (execute stmt) s ↔
    (∀ e, stmt s.working = .error e → E e s) ∧
      ∀ a t, stmt s.working = .ok (a, t) → Q a { s with working := t } := by
  have hon : (execute stmt : Work σ ω ε α).on s = match stmt s.working with
      | .ok (a, t) => (.ok a, { s with working := t })
      | .error e => (.error e, s) := rfl
  unfold Ends
  rw [hon]
  rcases stmt s.working with e | ⟨a, t⟩ <;> simp

theorem ends_execute_ok {stmt : σ → Except ε (α × σ)} {a : α} {t : σ}
    (h : stmt s.working = .ok (a, t)) : Ends E Q (execute stmt) s ↔ Q a { s with working := t } := by
  rw [ends_execute, h]
  simp

theorem ends_execute_error {stmt : σ → Except ε (α × σ)} {e : ε} (h : stmt s.working = .error e) :
    Ends E Q (execute stmt) s ↔ E e s := by
  rw [ends_execute, h]
  simp

theorem ends_assign {x : ω} {Q : ω → Session σ ω → Prop} :
    Ends E Q (assign x) s ↔ Q x { s with object := some x } := by
  constructor
  · intro h
    exact h.2 x rfl
  · intro h
    refine ⟨nofun, fun y hy => ?_⟩
    cases hy
    exact h

theorem ends_rollback {Q : Unit → Session σ ω → Prop} : Ends E Q rollback s ↔ Q () s.close :=
  ⟨fun h => h.2 () rfl, fun h => ⟨nofun, fun _ _ => h⟩⟩

theorem ends_commit_ok {flush : ω → σ → Except ε σ} {Q : Unit → Session σ ω → Prop} {t : σ}
    (h : (s.object.elim (.ok s.working) fun x => flush x s.working) = .ok t) :
    Ends E Q (commit flush) s ↔ Q () (start t) := by
  have hon : (commit flush : Work σ ω ε Unit).on s =
      match s.object.elim (.ok s.working) fun x => flush x s.working with
      | .ok t => (.ok (), start t)
      | .error e => (.error e, s.close) := rfl
  unfold Ends
  rw [hon, h]
  exact ⟨fun hends => hends.2 () rfl, fun hQ => ⟨nofun, fun _ _ => hQ⟩⟩

/-- Code that cannot end with an error. -/
theorem Ends.succeeds {m : Work σ ω ε α} (h : Ends (fun _ _ => False) Q m s) :
    ∃ a, (m.on s).1 = .ok a ∧ Q a (m.on s).2 := by
  cases hm : (m.on s).1 with
  | error e => exact (h.1 e hm).elim
  | ok a => exact ⟨a, rfl, h.2 a hm⟩

/-- Code that cannot end with a value. -/
theorem Ends.fails {m : Work σ ω ε α} (h : Ends E (fun _ _ => False) m s) :
    ∃ e, (m.on s).1 = .error e := by
  cases hm : (m.on s).1 with
  | error e => exact ⟨e, rfl⟩
  | ok a => exact (h.2 a hm).elim

/-! ## Failures -/

/-- What is stored is what was. -/
def Kept (t : σ) (_ : ε) (s : Session σ ω) : Prop := s.stored = t

/-- The code changes the object at most, however it ends. -/
def InMemory (m : Work σ ω ε α) : Prop :=
  ∀ s t, s.stored = t → s.working = t →
    Ends (Kept t) (fun _ s' => s'.stored = t ∧ s'.working = t) m s

theorem inMemory_pure (a : α) : InMemory (pure a : Work σ ω ε α) :=
  fun _ _ hs hw => ends_pure.mpr ⟨hs, hw⟩

theorem inMemory_throw (e : ε) : InMemory (throw e : Work σ ω ε α) :=
  fun _ _ hs _ => ends_throw.mpr hs

theorem inMemory_assign (x : ω) : InMemory (assign x : Work σ ω ε ω) :=
  fun _ _ hs hw => ends_assign.mpr ⟨hs, hw⟩

theorem InMemory.bind {m : Work σ ω ε β} {f : β → Work σ ω ε α} (hm : InMemory m)
    (hf : ∀ b, InMemory (f b)) : InMemory (m >>= f) := fun s t hs hw =>
  ends_bind.mpr ((hm s t hs hw).mono (fun _ _ => id) fun b s' h => hf b s' t h.1 h.2)

/-- A commit stores all, or fails and stores nothing. -/
theorem ends_commit {flush : ω → σ → Except ε σ} {Q : Unit → Session σ ω → Prop} {t : σ}
    (hkept : s.stored = t)
    (hQ : ∀ t', (s.object.elim (.ok s.working) fun x => flush x s.working) = .ok t' → Q () (start t')) :
    Ends (Kept t) Q (commit flush) s := by
  have hon : (commit flush : Work σ ω ε Unit).on s =
      match s.object.elim (.ok s.working) fun x => flush x s.working with
      | .ok t => (.ok (), start t)
      | .error e => (.error e, s.close) := rfl
  unfold Ends
  rw [hon]
  cases hflush : s.object.elim (.ok s.working) fun x => flush x s.working with
  | error e =>
    refine ⟨fun e' he => ?_, nofun⟩
    exact hkept
  | ok t' => exact ⟨nofun, fun _ _ => hQ t' hflush⟩

/-- A request that stores nothing when it fails changes nothing when it fails. -/
theorem request_unchanged {m : Work σ ω ε α} {t : σ} {e : ε}
    (h : Ends (Kept t) Q m (start t)) (he : (request m t).1 = .error e) :
    (request m t).2 = start t := by
  have hkept : (m.on (start t)).2.stored = t := h.1 e he
  exact congrArg start hkept

end UnitOfWork
