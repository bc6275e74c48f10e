import CueApi.Library.Always
import CueApi.Library.Recorded

/-! What processes note on the way. A note tells something of the world that every later world
keeps; the programs of one kind run beside any others, and all that they have noted is true. -/

namespace Recorded

open ReadCommitted Interleaving Trace

variable {K T W P C M R X ι α β : Type} [DecidableEq P] {S : Schema K T W}

section Rule

-- `G` is how worlds move on, `D` what a note tells
variable (G : World S P C M R X → World S P C M R X → Prop) (D : World S P C M R X → M → Prop)
  (p : P)

/-- What `p` has noted is true. -/
def Told (w : World S P C M R X) : Prop := ∀ m, .marked p m ∈ w.history → D w m

/-- What happens to `p` between two of its own steps. -/
def Drift (q : P) (w w' : World S P C M R X) : Prop := q = p → Rely q w w' ∧ G w w'

/-- From `w` on, all that `prog` notes for `p` is true. -/
abbrev Tells (Q : α → World S P C M R X → Prop) (prog : Prog (World S P C M R X) ι α)
    (w : World S P C M R X) : Prop := Safe (Told D p) (Drift G p) p Q prog w

/-- A step of `p` moves the world on, and its notes are true. -/
structure Says (w w' : World S P C M R X) : Prop where
  moves : G w w'
  notes : ∀ m, .marked p m ∈ w'.history → .marked p m ∈ w.history ∨ D w' m

variable {G D p} {w w' : World S P C M R X}

omit [DecidableEq P] in
theorem Says.quiet (hG : G w w') (hh : w'.history = w.history) : Says G D p w w' :=
  ⟨hG, fun _ hm => .inl (hh ▸ hm)⟩

omit [DecidableEq P] in
theorem Says.note {m : M} (hG : G w w') (hh : w'.history = .marked p m :: w.history)
    (hm : D w' m) : Says G D p w w' := by
  refine ⟨hG, fun m' hm' => ?_⟩
  rw [hh] at hm'
  rcases List.mem_cons.mp hm' with heq | hm'
  · cases heq
    exact .inr hm
  · exact .inl hm'

omit [DecidableEq P] in
theorem Says.commit {time : Int} {ws : List W} (hG : G w w')
    (hh : w'.history = .commit p time ws :: w.history) : Says G D p w w' := by
  refine ⟨hG, fun m hm => ?_⟩
  rw [hh] at hm
  rcases List.mem_cons.mp hm with heq | hm
  · cases heq
  · exact .inl hm

omit [DecidableEq P] in
theorem Told.after (hD : ∀ w w' m, G w w' → D w m → D w' m) (ht : Told D p w)
    (hs : Says G D p w w') : Told D p w' := fun m hm =>
  (hs.notes m hm).elim (fun hm => hD w w' m hs.moves (ht m hm)) id

/-- The rule of a statement. -/
theorem Tells.step_bind (hD : ∀ w w' m, G w w' → D w m → D w' m)
    {Q : α → World S P C M R X → Prop}
    {act : World S P C M R X → ι → Option (β × World S P C M R X)}
    {k : β → Prog (World S P C M R X) ι α}
    (h : ∀ w₁, Rely p w w₁ → G w w₁ → ∀ i r w₂, act w₁ i = some (r, w₂) →
      Says G D p w₁ w₂ ∧ Tells G D p Q (k r) w₂) : Tells G D p Q (Prog.step act >>= k) w := by
  refine Safe.step_bind fun w₁ hd ht i r w₂ hs => ?_
  obtain ⟨hr, hG⟩ := hd rfl
  obtain ⟨hsaid, hk⟩ := h w₁ hr hG i r w₂ hs
  exact ⟨ht.after hD hsaid, fun q hq heq => absurd heq hq, hk⟩

/-- A program tells the truth if each of its steps does, given an assertion `J` that holds all
along. -/
theorem Tells.of_always (hD : ∀ w w' m, G w w' → D w m → D w' m)
    {J : World S P C M R X → Prop} (hJ : ∀ w w', J w → Rely p w w' → J w')
    {prog : Prog (World S P C M R X) ι α}
    (hp : prog.Always (fun _ => True) fun w w' => J w → Says G D p w w' ∧ J w') (hw : J w) :
    Tells G D p (fun _ w' => J w') prog w := by
  induction prog generalizing w with
  | ret a => exact hw
  | fail => trivial
  | atomic act k ih =>
    intro w₁ hd ht i r w₂ hs
    obtain ⟨hstep, hk⟩ := hp w₁ i r w₂ trivial hs
    obtain ⟨hsaid, hJ₂⟩ := hstep (hJ w w₁ hw (hd rfl).1)
    exact ⟨ht.after hD hsaid, fun q hq heq => absurd heq hq, ih r hk hJ₂⟩

end Rule

/-! ## Systems -/

variable {t₀ : T} {A : History P C W M R → Event P C W M R → Prop}
variable {programOf : P → C → Prog (World S P C M R X) ι R} {p q : P} {call : C}
variable {s s' : System S P C M R X ι} {h h' : History P C W M R}
variable {kind : C → Prop} {G : World S P C M R X → World S P C M R X → Prop}
variable {D : World S P C M R X → M → Prop}

/-- The call of a process never changes. -/
theorem callOf_suffix (hbegan : ∀ h p call, A h (.began p call) → own p h = [])
    (hl : Along A h') (hs : h <:+ h') (hc : callOf p h = some call) :
    callOf p h' = some call := by
  obtain ⟨pre, rfl⟩ := hs
  induction pre with
  | nil => exact hc
  | cons ev pre ih =>
    have ih := ih hl.2
    cases ev with
    | began q call' =>
      change (if q = p then some call' else callOf p (pre ++ h)) = some call
      split
      · rename_i hq
        subst hq
        have hown : own q (pre ++ h) = [] := hbegan _ q call' hl.1
        have hmem : .began q call ∈ own q (pre ++ h) := mem_own.mpr ⟨began_of_callOf ih, rfl⟩
        rw [hown] at hmem
        cases hmem
      · exact ih
    | commit q time ws => exact ih
    | marked q mark => exact ih
    | ended q how => exact ih

/-- Who takes the step. -/
def Action.pid : Action P C ι → Option P
  | .start p _ | .advance p _ | .leave p | .raise p => some p
  | .tick _ => none

/-- A step of another process. -/
theorem Sound.others (h : Sound t₀ A s) {a : Action P C ι} (hs : Recorded.step programOf s a = some s')
    (hq : a.pid ≠ some q) : Rely q s.shared s'.shared ∧ s'.procs q = s.procs q := by
  have gone : ∀ {p : P} {how : Ending R}, p ≠ q →
      Rely q s.shared (Recorded.left s p how).shared ∧
        (Recorded.left s p how).procs q = s.procs q := by
    intro p how hne
    have hev : (Event.ended p how : Event P C W M R).pid ≠ q := hne
    exact ⟨⟨Store.rollback_kept _ hne.symm, own_cons_of_ne hev _, List.suffix_cons _ _,
      Int.le_refl _⟩, Function.update_of_ne hne.symm _ _⟩
  cases a with
  | start p call =>
    have hne : p ≠ q := fun heq => hq (congrArg some heq)
    simp only [Recorded.step] at hs
    split at hs
    · cases hs
      exact ⟨.log _ hne, Function.update_of_ne hne.symm _ _⟩
    · cases hs
  | advance p i =>
    have hne : q ≠ p := fun heq => hq (congrArg some heq.symm)
    refine ⟨h.moved hs q hne, ?_⟩
    simp only [Recorded.step, Config.advance] at hs
    split at hs
    · obtain ⟨⟨r, w⟩, -, rfl⟩ := Option.map_eq_some_iff.mp hs
      exact Function.update_of_ne hne _ _
    · cases hs
  | leave p =>
    obtain ⟨prog, -, rfl⟩ := Option.map_eq_some_iff.mp hs
    exact gone fun heq => hq (congrArg some heq)
  | raise p =>
    obtain ⟨prog, -, rfl⟩ := Option.map_eq_some_iff.mp hs
    exact gone fun heq => hq (congrArg some heq)
  | tick d =>
    cases hs
    exact ⟨⟨.refl q _, rfl, List.suffix_refl _,
      Int.le_add_of_nonneg_right (Int.natCast_nonneg d)⟩, rfl⟩

/-- The programs of a kind tell the truth, and what they have told stays true. -/
structure Truthful (t₀ : T) (A : History P C W M R → Event P C W M R → Prop)
    (programOf : P → C → Prog (World S P C M R X) ι R) (kind : C → Prop)
    (G : World S P C M R X → World S P C M R X → Prop) (D : World S P C M R X → M → Prop) :
    Prop where
  began : ∀ h p call, A h (.began p call) → own p h = []
  refl : ∀ w, G w w
  trans : ∀ {a b c}, G a b → G b c → G a c
  stays : ∀ w w' m, G w w' → D w m → D w' m
  moves : ∀ {s s' : System S P C M R X ι} {a}, Sound t₀ A s → step programOf s a = some s' →
    G s.shared s'.shared
  tells : ∀ {p call w}, kind call → At p [] [.began p call] w →
    Tells G D p (fun _ _ => True) (programOf p call) w

/-- The invariant of a system: all that the processes of the kind have noted is true, and so will
be all they note. -/
structure Telling (t₀ : T) (A : History P C W M R → Event P C W M R → Prop) (kind : C → Prop)
    (G : World S P C M R X → World S P C M R X → Prop) (D : World S P C M R X → M → Prop)
    (s : System S P C M R X ι) : Prop where
  sound : Sound t₀ A s
  told : ∀ p call, callOf p s.shared.history = some call → kind call → Told D p s.shared
  progs : ∀ p call prog, callOf p s.shared.history = some call → kind call →
    s.procs p = some prog → Tells G D p (fun _ _ => True) prog s.shared

section Run

variable (ht : Truthful t₀ A programOf kind G D)

include ht

theorem Telling.others (h : Telling t₀ A kind G D s) {a : Action P C ι}
    (hs : Recorded.step programOf s a = some s') (hq : a.pid ≠ some q)
    (hc : callOf q s'.shared.history = some call) (hkind : kind call) :
    Told D q s'.shared ∧ ∀ prog, s'.procs q = some prog →
      Tells G D q (fun _ _ => True) prog s'.shared := by
  obtain ⟨hr, hprocs⟩ := h.sound.others hs hq
  have hG := ht.moves h.sound hs
  have hc : callOf q s.shared.history = some call := by
    rw [← callOf_own, ← hr.own, callOf_own]
    exact hc
  refine ⟨fun m hm => ?_, fun prog hp => ?_⟩
  · have hm : .marked q m ∈ own q s.shared.history := hr.own ▸ mem_own.mpr ⟨hm, rfl⟩
    exact ht.stays _ _ m hG (h.told q call hc hkind m (mem_own.mp hm).1)
  · refine (h.progs q call prog hc hkind (hprocs ▸ hp)).rely ?_ (fun _ _ _ _ _ => trivial)
      fun _ => ⟨hr, hG⟩
    exact fun hd hd' heq => ⟨(hd heq).1.trans (hd' heq).1, ht.trans (hd heq).2 (hd' heq).2⟩

/-- The process that takes the step. -/
theorem Telling.acts [Nontrivial P] (hk : Keeps S t₀ A programOf) (h : Telling t₀ A kind G D s)
    {a : Action P C ι} (hs : Recorded.step programOf s a = some s') (hp : a.pid = some p)
    (hc : callOf p s'.shared.history = some call) (hkind : kind call) :
    Told D p s'.shared ∧ ∀ prog, s'.procs p = some prog →
      Tells G D p (fun _ _ => True) prog s'.shared := by
  have hG := ht.moves h.sound hs
  obtain ⟨hsound, hsuf⟩ := h.sound.step hk hs
  have gone : ∀ {how : Ending R}, s' = Recorded.left s p how → Told D p s'.shared ∧
      ∀ prog, s'.procs p = some prog → Tells G D p (fun _ _ => True) prog s'.shared := by
    rintro how rfl
    refine ⟨fun m hm => ?_, fun prog hprog => ?_⟩
    · rcases List.mem_cons.mp hm with heq | hm
      · cases heq
      · exact ht.stays _ _ m hG (h.told p call hc hkind m hm)
    · rw [show (Recorded.left s p how).procs p = none from Function.update_self _ _ _] at hprog
      cases hprog
  cases a with
  | start p' call' =>
    cases hp
    simp only [Recorded.step] at hs
    split at hs
    · rename_i hcond
      cases hs
      have hown : own p s.shared.history = [] := List.isEmpty_iff.mp hcond.1
      have hcall : callOf p (.began p call' :: s.shared.history) = some call' := if_pos rfl
      obtain rfl : call' = call := Option.some.inj (hcall.symm.trans hc)
      refine ⟨fun m hm => ?_, fun prog hprog => ?_⟩
      · rcases List.mem_cons.mp hm with heq | hm
        · cases heq
        · have hm := mem_own.mpr ⟨hm, rfl⟩
          rw [show (Event.marked p m).pid = p from rfl, hown] at hm
          cases hm
      · obtain rfl : programOf p call' = prog := by simpa [Config.put] using hprog
        exact ht.tells hkind ⟨List.isEmpty_iff.mp hcond.2, (own_began ..).trans (by rw [hown])⟩
    · cases hs
  | advance p' i =>
    cases hp
    simp only [Recorded.step, Config.advance] at hs
    split at hs
    · rename_i β act k hprog
      obtain ⟨⟨r, w⟩, hact, rfl⟩ := Option.map_eq_some_iff.mp hs
      obtain ⟨call', hc'⟩ := Option.isSome_iff_exists.mp (h.sound.called p (by simp [hprog]))
      obtain rfl : call' = call :=
        Option.some.inj ((callOf_suffix ht.began hsound.good.1.legal hsuf hc').symm.trans hc)
      obtain ⟨htold, -, hk⟩ := h.progs p _ _ hc' hkind hprog s.shared
        (fun _ => ⟨.refl p _, ht.refl _⟩) (h.told p _ hc' hkind) i r w hact
      refine ⟨htold, fun prog hprog' => ?_⟩
      obtain rfl : k r = prog := by simpa using hprog'
      exact hk
    · cases hs
  | leave p' =>
    cases hp
    obtain ⟨prog, -, heq⟩ := Option.map_eq_some_iff.mp hs
    exact gone heq.symm
  | raise p' =>
    cases hp
    obtain ⟨prog, -, heq⟩ := Option.map_eq_some_iff.mp hs
    exact gone heq.symm
  | tick d => cases hp

theorem Telling.step [Nontrivial P] (hk : Keeps S t₀ A programOf) (h : Telling t₀ A kind G D s)
    {a : Action P C ι} (hs : Recorded.step programOf s a = some s') : Telling t₀ A kind G D s' := by
  have both : ∀ q call, callOf q s'.shared.history = some call → kind call →
      Told D q s'.shared ∧ ∀ prog, s'.procs q = some prog →
        Tells G D q (fun _ _ => True) prog s'.shared := by
    intro q call hc hkind
    by_cases hq : a.pid = some q
    · exact h.acts ht hk hs hq hc hkind
    · exact h.others ht hs hq hc hkind
  exact ⟨(h.sound.step hk hs).1, fun q call hc hkind => (both q call hc hkind).1,
    fun q call prog hc hkind => (both q call hc hkind).2 prog⟩

/-- In every run, all that the processes of the kind have noted is true. -/
theorem told_of_run [Nontrivial P] (hk : Keeps S t₀ A programOf) {x : X} {now : Int}
    {as : List (Action P C ι)} (hr : run programOf (init t₀ x now) as = some s)
    (hc : callOf p s.shared.history = some call) (hkind : kind call) : Told D p s.shared := by
  have hrun : ∀ (as : List (Action P C ι)) (s₀ : System S P C M R X ι), Telling t₀ A kind G D s₀ →
      run programOf s₀ as = some s → Telling t₀ A kind G D s := by
    intro as
    induction as with
    | nil =>
      rintro s₀ h₀ ⟨⟩
      exact h₀
    | cons a as ih =>
      intro s₀ h₀ hr
      obtain ⟨s₁, hs, hr⟩ := Option.bind_eq_some_iff.mp hr
      exact ih s₁ (h₀.step ht hk hs) hr
  have hinit : Telling t₀ A kind G D (init t₀ x now : System S P C M R X ι) :=
    ⟨sound_init t₀ A x now, fun p call hc => (by cases hc), fun p call prog hc => (by cases hc)⟩
  exact (hrun as _ hinit hr).told p call hc hkind

end Run

end Recorded
