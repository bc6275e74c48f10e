import CueApi.Library.Always
import CueApi.Library.Recorded

/-! Events that carry the clock. Where every statement stamps what it records with the clock that it
finds, the stamps of a history are in order and none is ahead of the clock. -/

namespace Recorded

open ReadCommitted Interleaving Trace

variable {K T W P C M R X ι α : Type} {S : Schema K T W}

section Order

variable (stamp : Event P C W M R → Option Int)

/-- No event is stamped before one that it follows. -/
def InOrder (h : History P C W M R) : Prop :=
  Along (fun h ev => ∀ ev' ∈ h, ∀ t t', stamp ev = some t → stamp ev' = some t' → t' ≤ t) h

/-- The stamps are in order and in the past. -/
structure Clocked (w : World S P C M R X) : Prop where
  inOrder : InOrder stamp w.history
  past : ∀ ev ∈ w.history, ∀ t, stamp ev = some t → t ≤ w.clock

/-- A statement records one event at most, with the clock that it finds. -/
structure Stamps (w w' : World S P C M R X) : Prop where
  clock : w'.clock = w.clock
  history : w'.history = w.history ∨
    ∃ ev, w'.history = ev :: w.history ∧ ∀ t, stamp ev = some t → t = w.clock

end Order

variable {stamp : Event P C W M R → Option Int} {w w' : World S P C M R X}
variable {h h₁ h₂ : History P C W M R}

/-- Of two stamped events the earlier has the earlier stamp. -/
theorem InOrder.le (ho : InOrder stamp h) {ev ev' : Event P C W M R} (hs : ev :: h₁ <:+ h)
    (hm : ev' ∈ h₁) {t t' : Int} (ht : stamp ev = some t) (ht' : stamp ev' = some t') : t' ≤ t :=
  ho.at hs ev' hm t t' ht ht'

theorem Stamps.quiet (hc : w'.clock = w.clock) (hh : w'.history = w.history) : Stamps stamp w w' :=
  ⟨hc, .inl hh⟩

theorem Stamps.log {ev : Event P C W M R} (hc : w'.clock = w.clock)
    (hh : w'.history = ev :: w.history) (ht : ∀ t, stamp ev = some t → t = w.clock) :
    Stamps stamp w w' := ⟨hc, .inr ⟨ev, hh, ht⟩⟩

/-- The step lemma. -/
theorem Clocked.after (hw : Clocked stamp w) (hs : Stamps stamp w w') : Clocked stamp w' := by
  rcases hs.history with hh | ⟨ev, hh, hev⟩
  · refine ⟨hh ▸ hw.inOrder, ?_⟩
    rw [hh, hs.clock]
    exact hw.past
  · refine ⟨?_, ?_⟩
    · rw [hh]
      refine ⟨fun ev' hm t t' ht ht' => ?_, hw.inOrder⟩
      rw [hev t ht]
      exact hw.past ev' hm t' ht'
    · rw [hh, hs.clock]
      intro ev' hm t ht
      rcases List.mem_cons.mp hm with rfl | hm
      · exact Int.le_of_eq (hev t ht)
      · exact hw.past ev' hm t ht

/-- An event without a stamp. -/
theorem Clocked.unstamped (hw : Clocked stamp w) {ev : Event P C W M R} (hev : stamp ev = none)
    (hc : w'.clock = w.clock) (hh : w'.history = ev :: w.history) : Clocked stamp w' := by
  refine hw.after (.log hc hh fun t ht => ?_)
  rw [hev] at ht
  cases ht

section Run

variable [DecidableEq P] {programOf : P → C → Prog (World S P C M R X) ι R}
variable {s s' : System S P C M R X ι}

/-- The programs stamp what they record, and the ends of a process have no stamp. -/
structure Stamping (stamp : Event P C W M R → Option Int)
    (programOf : P → C → Prog (World S P C M R X) ι R) : Prop where
  began : ∀ p call, stamp (.began p call) = none
  ended : ∀ p how, stamp (.ended p how) = none
  programs : ∀ p call, (programOf p call).Always (fun _ => True) (Stamps stamp)

/-- The invariant of a system. -/
structure ClockedSystem (stamp : Event P C W M R → Option Int) (s : System S P C M R X ι) : Prop where
  shared : Clocked stamp s.shared
  programs : ∀ p prog, s.procs p = some prog → prog.Always (fun _ => True) (Stamps stamp)

theorem ClockedSystem.left (hst : Stamping stamp programOf) (h : ClockedSystem stamp s) (p : P)
    (how : Ending R) : ClockedSystem stamp (Recorded.left s p how) where
  shared := h.shared.unstamped (hst.ended p how) rfl rfl
  programs q prog hq := by
    by_cases hqp : q = p
    · subst hqp
      simp [Recorded.left, Config.put] at hq
    · exact h.programs q prog (by simpa [Recorded.left, Config.put, hqp] using hq)

theorem ClockedSystem.step (hst : Stamping stamp programOf) (h : ClockedSystem stamp s)
    {a : Action P C ι} (hs : Recorded.step programOf s a = some s') : ClockedSystem stamp s' := by
  cases a with
  | start p call =>
    simp only [Recorded.step] at hs
    split at hs
    · cases hs
      refine ⟨h.shared.unstamped (hst.began p call) rfl rfl, fun q prog hq => ?_⟩
      by_cases hqp : q = p
      · subst hqp
        obtain rfl : programOf q call = prog := by simpa [Config.put] using hq
        exact hst.programs q call
      · exact h.programs q prog (by simpa [Config.put, hqp] using hq)
    · cases hs
  | advance p a =>
    obtain ⟨hG, hp, -, -, hothers⟩ := Config.advance_always hs trivial fun m hm => h.programs p m hm
    refine ⟨h.shared.after hG, fun q prog hq => ?_⟩
    by_cases hqp : q = p
    · subst hqp
      exact hp prog hq
    · rw [hothers q hqp] at hq
      exact h.programs q prog hq
  | leave p =>
    obtain ⟨prog, -, rfl⟩ := Option.map_eq_some_iff.mp hs
    exact h.left hst p _
  | raise p =>
    obtain ⟨prog, -, rfl⟩ := Option.map_eq_some_iff.mp hs
    exact h.left hst p _
  | tick d =>
    cases hs
    refine ⟨⟨h.shared.inOrder, fun ev hm t ht => ?_⟩, h.programs⟩
    have hle := h.shared.past ev hm t ht
    show t ≤ s.shared.clock + d
    omega

/-- The run lemma. -/
theorem clocked_of_run (hst : Stamping stamp programOf) {t₀ : T} {x : X} {now : Int}
    {as : List (Action P C ι)} (hr : run programOf (init t₀ x now) as = some s) :
    Clocked stamp s.shared := by
  have hrun : ∀ (as : List (Action P C ι)) (s₀ : System S P C M R X ι), ClockedSystem stamp s₀ →
      run programOf s₀ as = some s → ClockedSystem stamp s := by
    intro as
    induction as with
    | nil =>
      rintro s₀ h₀ ⟨⟩
      exact h₀
    | cons a as ih =>
      intro s₀ h₀ hr
      obtain ⟨s₁, hs, hr⟩ := Option.bind_eq_some_iff.mp hr
      exact ih s₁ (h₀.step hst hs) hr
  have hinit : ClockedSystem stamp (init t₀ x now : System S P C M R X ι) :=
    ⟨⟨trivial, fun ev hm => by cases hm⟩, fun p prog hp => by cases hp⟩
  exact (hrun as _ hinit hr).shared

end Run

end Recorded
