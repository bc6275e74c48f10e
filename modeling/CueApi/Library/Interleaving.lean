import Mathlib.Logic.Function.Basic

/-! Programs as trees of atomic steps on a shared state, and the rule that
verifies any number of them under interleaving. A step takes an answer from
outside (a clock, a network reply, the rows a query returns in some order) and
is not enabled when it yields `none`. `Safe` is a rely condition: the others may
move the state along `R p` between any two steps of `p`. -/

namespace Interleaving

variable {P σ ι α β : Type}

inductive Prog (σ ι α : Type) : Type 1
  | ret (a : α)
  | fail
  | atomic {β : Type} (act : σ → ι → Option (β × σ)) (k : β → Prog σ ι α)

namespace Prog

def bind : Prog σ ι α → (α → Prog σ ι β) → Prog σ ι β
  | .ret a, f => f a
  | .fail, _ => .fail
  | .atomic act k, f => .atomic act fun r => (k r).bind f

instance : Monad (Prog σ ι) where
  pure := .ret
  bind := Prog.bind

/-- One atomic step. -/
def step (act : σ → ι → Option (β × σ)) : Prog σ ι β := .atomic act .ret

/-- Run `f` on each element in turn and collect the results. -/
def mapEach (f : α → Prog σ ι β) : List α → Prog σ ι (List β)
  | [] => .ret []
  | x :: xs => (f x).bind fun y => (mapEach f xs).bind fun ys => .ret (y :: ys)

end Prog

section Rule

variable (I : σ → Prop) (R : P → σ → σ → Prop) (p : P)

/-- From `s` on, whatever the others do along `R p`, every step of the program
keeps `I`, is within `R q` for the others, and a result satisfies `Q`. -/
def Safe (Q : α → σ → Prop) : Prog σ ι α → σ → Prop
  | .ret a, s => Q a s
  | .fail, _ => True
  | .atomic act k, s => ∀ s₁, R p s s₁ → I s₁ → ∀ i r s₂, act s₁ i = some (r, s₂) →
      I s₂ ∧ (∀ q, q ≠ p → R q s₁ s₂) ∧ Safe Q (k r) s₂

variable {I R p}

theorem Safe.bind {Q : α → σ → Prop} {Q' : β → σ → Prop} {f : α → Prog σ ι β}
    {m : Prog σ ι α} {s : σ} (hm : Safe I R p Q m s)
    (hf : ∀ a s', Q a s' → Safe I R p Q' (f a) s') : Safe I R p Q' (m >>= f) s := by
  induction m generalizing s with
  | ret a => exact hf a s hm
  | fail => trivial
  | atomic act k ih =>
    intro s₁ h₁ hI i r s₂ hs
    obtain ⟨h, hR, hk⟩ := hm s₁ h₁ hI i r s₂ hs
    exact ⟨h, hR, ih r hk⟩

/-- The rule of a statement: what it does from any state the others may leave. -/
theorem Safe.step_bind {Q : α → σ → Prop} {act : σ → ι → Option (β × σ)}
    {k : β → Prog σ ι α} {s : σ}
    (h : ∀ s₁, R p s s₁ → I s₁ → ∀ i r s₂, act s₁ i = some (r, s₂) →
      I s₂ ∧ (∀ q, q ≠ p → R q s₁ s₂) ∧ Safe I R p Q (k r) s₂) :
    Safe I R p Q (Prog.step act >>= k) s := h

theorem Safe.weaken {Q Q' : α → σ → Prop} {m : Prog σ ι α} {s : σ}
    (hm : Safe I R p Q m s) (h : ∀ a s, Q a s → Q' a s) : Safe I R p Q' m s := by
  induction m generalizing s with
  | ret a => exact h a s hm
  | fail => trivial
  | atomic act k ih =>
    intro s₁ h₁ hI i r s₂ hs
    obtain ⟨hI₂, hR, hk⟩ := hm s₁ h₁ hI i r s₂ hs
    exact ⟨hI₂, hR, ih r hk⟩

/-- A loop keeps `J`, which knows the elements done and those to come. -/
theorem Safe.mapEach {J : List α → List α → σ → Prop} {f : α → Prog σ ι β}
    (hf : ∀ done x todo s, J done (x :: todo) s →
      Safe I R p (fun _ s' => J (done ++ [x]) todo s') (f x) s)
    (done : List α) {todo : List α} {s : σ} (h : J done todo s) :
    Safe I R p (fun _ s' => J (done ++ todo) [] s') (Prog.mapEach f todo) s := by
  induction todo generalizing done s with
  | nil => simpa [Prog.mapEach, Safe] using h
  | cons x todo ih =>
    refine Safe.bind (hf done x todo s h) fun y s' h' => Safe.bind (ih _ h') fun ys s'' h'' => ?_
    simpa [Safe] using h''

theorem Safe.rely (htrans : ∀ {a b c}, R p a b → R p b c → R p a c) {Q : α → σ → Prop}
    (hQ : ∀ a s s', R p s s' → Q a s → Q a s') {m : Prog σ ι α} {s s' : σ}
    (hm : Safe I R p Q m s) (h : R p s s') : Safe I R p Q m s' := by
  cases m with
  | ret a => exact hQ a s s' h hm
  | fail => trivial
  | atomic act k => exact fun s₁ h₁ => hm s₁ (htrans h h₁)

end Rule

/-- A shared state and the programs that still run on it. -/
structure Config (P σ ι α : Type) where
  shared : σ
  procs : P → Option (Prog σ ι α)

namespace Config

variable [DecidableEq P]

/-- Let `p` take its next step with the answer `i`. -/
def advance (c : Config P σ ι α) (p : P) (i : ι) : Option (Config P σ ι α) :=
  match c.procs p with
  | some (.atomic act k) =>
      (act c.shared i).map fun x => ⟨x.2, Function.update c.procs p (some (k x.1))⟩
  | _ => none

/-- Put `prog` in the place of `p` and the shared state to `s`. -/
def put (c : Config P σ ι α) (s : σ) (p : P) (prog : Option (Prog σ ι α)) :
    Config P σ ι α := ⟨s, Function.update c.procs p prog⟩

end Config

section Sound

variable (I : σ → Prop) (R : P → σ → σ → Prop) (Q : P → α → σ → Prop)

/-- The invariant of a configuration: `I` holds and every program is safe. -/
def Good (c : Config P σ ι α) : Prop :=
  I c.shared ∧ ∀ p prog, c.procs p = some prog → Safe I R p (Q p) prog c.shared

variable {I R Q} [DecidableEq P]

/-- One process changes its program while the shared state moves along `R` of
every other one. -/
theorem Good.put (htrans : ∀ p {a b c}, R p a b → R p b c → R p a c)
    (hQ : ∀ p a s s', R p s s' → Q p a s → Q p a s') {c : Config P σ ι α} (h : Good I R Q c)
    {s : σ} {p : P} {prog : Option (Prog σ ι α)} (hI : I s)
    (hR : ∀ q, q ≠ p → R q c.shared s)
    (hp : ∀ m, prog = some m → Safe I R p (Q p) m s) : Good I R Q (c.put s p prog) := by
  refine ⟨hI, fun q m hm => ?_⟩
  by_cases hq : q = p
  · subst hq
    exact hp m (by simpa [Config.put] using hm)
  · have hm' : c.procs q = some m := by simpa [Config.put, hq] using hm
    exact (h.2 q m hm').rely (htrans q) (hQ q) (hR q hq)

omit [DecidableEq P] in
/-- The shared state moves on its own, along `R` of every process. -/
theorem Good.drift (htrans : ∀ p {a b c}, R p a b → R p b c → R p a c)
    (hQ : ∀ p a s s', R p s s' → Q p a s → Q p a s') {c : Config P σ ι α} (h : Good I R Q c)
    {s : σ} (hI : I s) (hR : ∀ q, R q c.shared s) : Good I R Q { c with shared := s } :=
  ⟨hI, fun q m hm => (h.2 q m hm).rely (htrans q) (hQ q) (hR q)⟩

/-- What a process does next is within `R` of every other one. -/
theorem Good.others (hrefl : ∀ p s, R p s s) {c c' : Config P σ ι α}
    (h : Good I R Q c) {p q : P} {i : ι} (hs : c.advance p i = some c') (hq : q ≠ p) :
    R q c.shared c'.shared := by
  unfold Config.advance at hs
  split at hs
  · rename_i β act k hp
    obtain ⟨⟨r, s⟩, hact, rfl⟩ := Option.map_eq_some_iff.mp hs
    exact (h.2 p _ hp c.shared (hrefl p _) h.1 i r s hact).2.1 q hq
  · cases hs

theorem Good.advance (htrans : ∀ p {a b c}, R p a b → R p b c → R p a c)
    (hrefl : ∀ p s, R p s s) (hQ : ∀ p a s s', R p s s' → Q p a s → Q p a s')
    {c c' : Config P σ ι α} (h : Good I R Q c) {p : P} {i : ι}
    (hs : c.advance p i = some c') : Good I R Q c' := by
  unfold Config.advance at hs
  split at hs
  · rename_i β act k hp
    obtain ⟨⟨r, s⟩, hact, rfl⟩ := Option.map_eq_some_iff.mp hs
    obtain ⟨hI, hR, hk⟩ := h.2 p _ hp c.shared (hrefl p _) h.1 i r s hact
    refine h.put htrans hQ hI hR ?_
    rintro m ⟨⟩
    exact hk
  · cases hs

end Sound

end Interleaving
