/-! Machines: a partial step on states, runs of actions, and what holds along a run whose steps all
meet a condition on the state before them. -/

namespace Machine

variable {σ α : Type} (step : σ → α → Option σ)

def run (s : σ) : List α → Option σ
  | [] => some s
  | a :: as => (step s a).bind fun s' => run s' as

/-- Every step of the run meets `C`. -/
def along (C : σ → α → Bool) (s : σ) : List α → Bool
  | [] => true
  | a :: as => C s a && (step s a).all fun s' => along C s' as

variable {step} {C D : σ → α → Bool} {s s' : σ} {a : α} {as bs : List α}

theorem run_cons : run step s (a :: as) = some s' ↔
    ∃ s₁, step s a = some s₁ ∧ run step s₁ as = some s' := Option.bind_eq_some_iff

theorem run_of_step (hs : step s a = some s') : run step s (a :: as) = run step s' as := by
  rw [run, hs, Option.bind_some]

/-- A step that is always possible makes every run possible. -/
theorem run_total (h : ∀ s a, ∃ s', step s a = some s') (s : σ) (as : List α) :
    ∃ s', run step s as = some s' := by
  induction as generalizing s with
  | nil => exact ⟨s, rfl⟩
  | cons a as ih =>
    obtain ⟨s₁, hs⟩ := h s a
    obtain ⟨s', hr⟩ := ih s₁
    exact ⟨s', (run_of_step hs).trans hr⟩

theorem run_append (s : σ) (as bs : List α) :
    run step s (as ++ bs) = (run step s as).bind fun s' => run step s' bs := by
  induction as generalizing s with
  | nil => rfl
  | cons a as ih =>
    simp only [List.cons_append, run]
    cases step s a with
    | none => rfl
    | some s' => exact ih s'

theorem along_cons (hs : step s a = some s') :
    along step C s (a :: as) = true ↔ C s a = true ∧ along step C s' as = true := by
  simp [along, hs]

theorem along_append (hr : run step s as = some s') :
    along step C s (as ++ bs) = true ↔
      along step C s as = true ∧ along step C s' bs = true := by
  induction as generalizing s with
  | nil =>
    cases hr
    simp [along]
  | cons a as ih =>
    obtain ⟨s₁, hs, hr⟩ := run_cons.mp hr
    rw [List.cons_append, along_cons hs, along_cons hs, ih hr, and_assoc]

theorem along_and (as : List α) : along step (fun s a => C s a && D s a) s as =
    (along step C s as && along step D s as) := by
  induction as generalizing s with
  | nil => rfl
  | cons a as ih =>
    simp only [along]
    cases step s a with
    | none => simp
    | some s' =>
      simp only [Option.all_some, ih]
      cases C s a <;> cases D s a <;> simp

theorem along_true (s : σ) (as : List α) : along step (fun _ _ => true) s as = true := by
  induction as generalizing s with
  | nil => rfl
  | cons a as ih =>
    simp only [along, Bool.true_and]
    cases step s a with
    | none => rfl
    | some s' => exact ih s'

/-- The condition at one step of the run. -/
theorem along_at {s₁ : σ} (ha : along step C s as = true) (hp : bs ++ [a] <+: as)
    (hr : run step s bs = some s₁) : C s₁ a = true := by
  obtain ⟨cs, rfl⟩ := hp
  rw [List.append_assoc, along_append hr, List.singleton_append] at ha
  simp only [along, Bool.and_eq_true] at ha
  exact ha.2.1

theorem along_of_at (h : ∀ bs a s₁, bs ++ [a] <+: as → run step s bs = some s₁ → C s₁ a = true) :
    along step C s as = true := by
  induction as generalizing s with
  | nil => rfl
  | cons a as ih =>
    simp only [along, Bool.and_eq_true]
    refine ⟨h [] a s (List.prefix_append [a] as) rfl, (Option.all_eq_true _ _).mpr fun s₁ hs => ?_⟩
    refine ih fun bs b s₂ hp hr => h (a :: bs) b s₂ ?_ ((run_of_step hs).trans hr)
    exact List.cons_prefix_cons.mpr ⟨rfl, hp⟩

/-- The invariant rule. -/
theorem invariant {I : σ → Prop} (hI : I s)
    (hstep : ∀ s a s', I s → C s a = true → step s a = some s' → I s')
    (hr : run step s as = some s') (ha : along step C s as = true) : I s' := by
  induction as generalizing s with
  | nil =>
    cases hr
    exact hI
  | cons a as ih =>
    obtain ⟨s₁, hs, hr⟩ := run_cons.mp hr
    obtain ⟨hc, ha⟩ := (along_cons hs).mp ha
    exact ih (hstep s a s₁ hI hc hs) hr ha

/-- A condition that follows from another wherever an invariant holds. -/
theorem along_of {I : σ → Prop} (hI : I s)
    (hstep : ∀ s a s', I s → C s a = true → step s a = some s' → I s')
    (h : ∀ s a, I s → C s a = true → D s a = true) (ha : along step C s as = true) :
    along step D s as = true := by
  induction as generalizing s with
  | nil => rfl
  | cons a as ih =>
    simp only [along, Bool.and_eq_true] at ha ⊢
    refine ⟨h s a hI ha.1, ?_⟩
    cases hs : step s a with
    | none => rfl
    | some s' =>
      rw [hs] at ha
      exact ih (hstep s a s' hI ha.1 hs) ha.2

/-- What every step relates, given an invariant, the ends of a run are related by. -/
theorem related {I : σ → Prop} {R : σ → σ → Prop} (hI : I s)
    (hstep : ∀ s a s', I s → C s a = true → step s a = some s' → I s')
    (refl : ∀ s, R s s) (trans : ∀ s₁ s₂ s₃, R s₁ s₂ → R s₂ s₃ → R s₁ s₃)
    (hR : ∀ s a s', I s → C s a = true → step s a = some s' → R s s')
    (hr : run step s as = some s') (ha : along step C s as = true) : R s s' := by
  induction as generalizing s with
  | nil =>
    cases hr
    exact refl _
  | cons a as ih =>
    obtain ⟨s₁, hs, hr⟩ := run_cons.mp hr
    obtain ⟨hc, ha⟩ := (along_cons hs).mp ha
    exact trans s s₁ s' (hR s a s₁ hI hc hs) (ih (hstep s a s₁ hI hc hs) hr ha)

/-- Where each step keeps `P` exactly when it meets `C`, a run stays in `P` exactly along `C`. -/
theorem along_iff {I P : σ → Prop} (hI : I s) (hP : P s)
    (hstep : ∀ s a s', I s → step s a = some s' → I s')
    (hexact : ∀ s a s', I s → P s → step s a = some s' → (P s' ↔ C s a = true))
    (hr : run step s as = some s') :
    (∀ bs s₁, bs <+: as → run step s bs = some s₁ → P s₁) ↔ along step C s as = true := by
  induction as generalizing s with
  | nil =>
    refine ⟨fun _ => rfl, fun _ bs s₁ hb hr₁ => ?_⟩
    rw [List.prefix_nil.mp hb] at hr₁
    cases hr₁
    exact hP
  | cons a as ih =>
    obtain ⟨s₁, hs, hrest⟩ := run_cons.mp hr
    have hI₁ := hstep s a s₁ hI hs
    rw [along_cons hs]
    constructor
    · intro h
      have hP₁ := h [a] s₁ (List.cons_prefix_cons.mpr ⟨rfl, List.nil_prefix⟩) (run_of_step hs)
      refine ⟨(hexact s a s₁ hI hP hs).mp hP₁, (ih hI₁ hP₁ hrest).mp fun bs s₂ hb hr₂ => ?_⟩
      exact h (a :: bs) s₂ (List.cons_prefix_cons.mpr ⟨rfl, hb⟩) ((run_of_step hs).trans hr₂)
    · rintro ⟨hc, ha⟩ bs s₂ hb hr₂
      have hP₁ := (hexact s a s₁ hI hP hs).mpr hc
      cases bs with
      | nil =>
        cases hr₂
        exact hP
      | cons b bs =>
        obtain ⟨rfl, htail⟩ := List.cons_prefix_cons.mp hb
        exact (ih hI₁ hP₁ hrest).mpr ha bs s₂ htail ((run_of_step hs).symm.trans hr₂)

end Machine
