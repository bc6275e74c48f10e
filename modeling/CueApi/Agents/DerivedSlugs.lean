import Mathlib.Data.List.DropRight

/-! `app/utils/slug.py`: slugs derived from the local part of an email and from a display name, and
`_SLUG_PATTERN` of `app/schemas/agent.py`, which a slug given by a caller has to match. -/

namespace CueApi.DerivedSlugs

abbrev Text := List Char
abbrev Uuid := BitVec 128

/-! ## The pattern -/

/-- `[a-z0-9]`. -/
def slugChar (c : Char) : Bool := c.isLower || c.isDigit

/-- `^[a-z0-9](?:[a-z0-9-]{0,62}[a-z0-9])?$`. -/
def slugPattern : Text → Bool
  | [] => false
  | [c] => slugChar c
  | c :: d :: rest =>
      slugChar c && (d :: rest).dropLast.all (fun x => slugChar x || x = '-') &&
        (d :: rest).dropLast.length ≤ 62 && slugChar ((d :: rest).getLast (List.cons_ne_nil d rest))

/-! ## The derivation -/

/-- `re.sub("[…]+", "-", …)`: a run of the class becomes one hyphen. -/
def subRuns (inClass : Char → Bool) : (inRun : Bool) → Text → Text
  | _, [] => []
  | inRun, c :: cs =>
      if inClass c then
        if inRun then subRuns inClass true cs else '-' :: subRuns inClass true cs
      else c :: subRuns inClass false cs

/-- `str.strip("-")`. -/
def strip (text : Text) : Text := (text.dropWhile (· = '-')).rdropWhile (· = '-')

/-- `uuid.uuid4().hex`. -/
def hex (u : Uuid) : Text :=
  (List.range 32).map fun i => Nat.digitChar ((u.toNat >>> (4 * (31 - i))) % 16)

section

-- `str.lower`
variable (lower : Text → Text)

/-- `_normalize`. -/
def normalize (fallback text : Text) : Text :=
  let s := subRuns (fun c => !slugChar c) false (lower text)
  let s := strip (subRuns (· = '-') false s)
  if s = [] then fallback else s

end

/-- The loop over the suffixes, and the last one. -/
def suffixed (taken : Text → Bool) (draws : Nat → Uuid) (base : Text) : Nat → Nat → Text
  | 0, i => base.take 55 ++ '-' :: (hex (draws i)).take 8
  | attempts + 1, i =>
      let candidate := base.take 59 ++ '-' :: (hex (draws i)).take 4
      if taken candidate then suffixed taken draws base attempts (i + 1) else candidate

/-- What both derivations do once they have the base. -/
def firstFree (taken : Text → Bool) (draws : Nat → Uuid) (maxAttempts : Nat) (base : Text) : Text :=
  if taken base then suffixed taken draws base maxAttempts 0 else base

def localPart (email : Text) : Text := email.takeWhile (· ≠ '@')

section

variable (lower : Text → Text) (taken : Text → Bool) (draws : Nat → Uuid)

/-- `derive_user_slug`; `taken` says which slugs the users have. -/
def deriveUserSlug (email : Text) (maxAttempts : Nat := 5) : Text :=
  firstFree taken draws maxAttempts ((normalize lower "user".toList (localPart email)).take 60)

/-- `derive_agent_slug`; `taken` says which slugs the agents of the user have. -/
def deriveAgentSlug (displayName : Text) (explicit : Option Text := none) (maxAttempts : Nat := 5) :
    Text :=
  match explicit with
  | some slug => slug
  | none =>
      firstFree taken draws maxAttempts ((normalize lower "agent".toList displayName).take 60)

end

variable {lower : Text → Text} {taken : Text → Bool} {draws : Nat → Uuid} {s t : Text} {c : Char}
variable {inClass : Char → Bool} {inRun : Bool} {fallback : Text} {n : Nat}

/-! ## What a slug is made of -/

def hyphenated (c : Char) : Bool := slugChar c || c = '-'

/-- The pattern, by the ends of the text. -/
theorem slugPattern_iff : slugPattern s = true ↔
    (∀ c ∈ s, hyphenated c = true) ∧ s.length ≤ 64 ∧ s.head?.any slugChar = true ∧
      s.getLast?.any slugChar = true := by
  match s with
  | [] => simp [slugPattern]
  | [c] =>
    simp only [slugPattern, List.mem_singleton, forall_eq, List.length_singleton, List.head?_cons,
      List.getLast?_singleton, Option.any_some, hyphenated]
    constructor
    · intro h
      simp [h]
    · rintro ⟨-, -, h, -⟩
      exact h
  | c :: d :: rest =>
    have hlast : (c :: d :: rest).getLast? = some ((d :: rest).getLast (List.cons_ne_nil d rest)) := by
      rw [List.getLast?_eq_some_getLast (List.cons_ne_nil c _), List.getLast_cons]
    have hall : (∀ x ∈ d :: rest, hyphenated x = true) ↔
        (d :: rest).dropLast.all hyphenated = true ∧
          hyphenated ((d :: rest).getLast (List.cons_ne_nil d rest)) = true := by
      conv_lhs => rw [← List.dropLast_append_getLast (List.cons_ne_nil d rest)]
      rw [List.forall_mem_append, List.all_eq_true]
      simp only [List.mem_singleton, forall_eq]
    have hlength : (c :: d :: rest).length = (d :: rest).dropLast.length + 2 := by simp
    rw [hlast, List.forall_mem_cons, hall, hlength]
    simp only [slugPattern, List.head?_cons, Option.any_some, Bool.and_eq_true, decide_eq_true_eq]
    have hchar (x : Char) (h : slugChar x = true) : hyphenated x = true := by simp [hyphenated, h]
    change (((_ ∧ (d :: rest).dropLast.all hyphenated = true) ∧ _) ∧ _) ↔ _
    constructor
    · rintro ⟨⟨⟨hc, hmid⟩, hlen⟩, hend⟩
      exact ⟨⟨hchar _ hc, hmid, hchar _ hend⟩, by omega, hc, hend⟩
    · rintro ⟨⟨-, hmid, -⟩, hlen, hc, hend⟩
      exact ⟨⟨⟨hc, hmid⟩, by omega⟩, hend⟩

theorem slugChar_of_hyphenated (h : hyphenated c = true) (hne : c ≠ '-') : slugChar c = true := by
  simpa [hyphenated, hne] using h

theorem subRuns_hyphenated (h : ∀ c ∈ s, inClass c = false → hyphenated c = true) :
    ∀ c ∈ subRuns inClass inRun s, hyphenated c = true := by
  induction s generalizing inRun with
  | nil => exact nofun
  | cons x xs ih =>
    have hxs : ∀ b, ∀ c ∈ subRuns inClass b xs, hyphenated c = true := fun b =>
      ih fun c hc => h c (List.mem_cons_of_mem x hc)
    unfold subRuns
    by_cases hx : inClass x = true
    · rw [if_pos hx]
      split
      · exact hxs true
      · exact List.forall_mem_cons.mpr ⟨rfl, hxs true⟩
    · rw [if_neg hx]
      exact List.forall_mem_cons.mpr ⟨h x List.mem_cons_self (Bool.eq_false_iff.mpr hx), hxs false⟩

theorem strip_mem (h : c ∈ strip s) : c ∈ s :=
  (List.dropWhile_sublist _).subset ((List.rdropWhile_prefix _ _).subset h)

theorem strip_last (h : strip s ≠ []) : (strip s).getLast h ≠ '-' := by
  have hnot := List.rdropWhile_last_not (fun c => decide (c = '-')) (s.dropWhile (· = '-')) h
  simpa [strip] using hnot

theorem strip_head (h : strip s ≠ []) : (strip s).head h ≠ '-' := by
  have hpre : strip s <+: s.dropWhile (· = '-') := List.rdropWhile_prefix _ _
  have hne : s.dropWhile (· = '-') ≠ [] := fun hnil => h (List.prefix_nil.mp (hnil ▸ hpre))
  rw [hpre.head h]
  simpa using List.head_dropWhile_not (fun c => decide (c = '-')) hne

/-- A text of the pattern but for its end and its length. -/
structure Begun (s : Text) : Prop where
  chars : ∀ c ∈ s, hyphenated c = true
  head : s.head?.any slugChar = true

/-- A text of the pattern but for its length. -/
structure Slugged (s : Text) : Prop extends Begun s where
  last : s.getLast?.any slugChar = true

/-- `_normalize` gives such a text. -/
theorem normalize_slugged (hfallback : Slugged fallback) (text : Text) :
    Slugged (normalize lower fallback text) := by
  simp only [normalize]
  split
  · exact hfallback
  · rename_i hne
    have hruns : ∀ c ∈ subRuns (fun c => !slugChar c) false (lower text), hyphenated c = true := by
      refine subRuns_hyphenated fun c _ hc => ?_
      have hslug : slugChar c = true := by simpa using hc
      simp [hyphenated, hslug]
    have hchars : ∀ c ∈ strip (subRuns (· = '-') false
        (subRuns (fun c => !slugChar c) false (lower text))), hyphenated c = true :=
      fun c hc => subRuns_hyphenated (fun c hc _ => hruns c hc) c (strip_mem hc)
    refine ⟨⟨hchars, ?_⟩, ?_⟩
    · rw [List.head?_eq_some_head hne, Option.any_some]
      exact slugChar_of_hyphenated (hchars _ (List.head_mem hne)) (strip_head hne)
    · rw [List.getLast?_eq_some_getLast hne, Option.any_some]
      exact slugChar_of_hyphenated (hchars _ (List.getLast_mem hne)) (strip_last hne)

/-! ## Cuts and suffixes -/

/-- A cut keeps the beginning. -/
theorem Begun.take (h : Begun s) (hn : n ≠ 0) : Begun (s.take n) where
  chars c hc := h.chars c (List.mem_of_mem_take hc)
  head := by
    rw [List.head?_take, if_neg hn]
    exact h.head

theorem slugChar_digitChar (hn : n < 16) : slugChar (Nat.digitChar n) = true := by
  revert n
  decide

theorem slugChar_hex (u : Uuid) (hc : c ∈ hex u) : slugChar c = true := by
  obtain ⟨i, -, rfl⟩ := List.mem_map.mp hc
  exact slugChar_digitChar (Nat.mod_lt _ (by decide))

/-- A cut and a suffix that fit make a slug, whatever the cut ends in. -/
theorem slugPattern_suffixed (h : Begun s) (u : Uuid) {k : Nat} (hn : n ≠ 0) (hk : k ≠ 0)
    (hfit : n + 1 + k ≤ 64) : slugPattern (s.take n ++ '-' :: (hex u).take k) = true := by
  have hcut := h.take hn
  have hsuffix : ∀ c ∈ (hex u).take k, slugChar c = true := fun c hc =>
    slugChar_hex u (List.mem_of_mem_take hc)
  have hne : (hex u).take k ≠ [] := by
    intro hnil
    have hlength := congrArg List.length hnil
    simp [hex] at hlength
    exact hk hlength
  refine slugPattern_iff.mpr ⟨?_, ?_, ?_, ?_⟩
  · refine List.forall_mem_append.mpr ⟨hcut.chars, List.forall_mem_cons.mpr ⟨rfl, fun c hc => ?_⟩⟩
    simp [hyphenated, hsuffix c hc]
  · rw [List.length_append, List.length_cons, List.length_take, List.length_take]
    omega
  · have hhead := hcut.head
    rw [List.head?_append]
    cases hbase : (s.take n).head? with
    | none =>
      rw [hbase] at hhead
      cases hhead
    | some c =>
      rw [hbase] at hhead
      exact hhead
  · rw [List.getLast?_append, List.getLast?_cons_of_ne_nil hne, List.getLast?_eq_some_getLast hne]
    exact hsuffix _ (List.getLast_mem hne)

theorem suffixed_slug (h : Begun s) (attempts i : Nat) :
    slugPattern (suffixed taken draws s attempts i) = true := by
  induction attempts generalizing i with
  | zero => exact slugPattern_suffixed h (draws i) (by decide) (by decide) (by decide)
  | succ attempts ih =>
    simp only [suffixed]
    split
    · exact ih (i + 1)
    · exact slugPattern_suffixed h (draws i) (by decide) (by decide) (by decide)

/-- The text is too long, is cut at a hyphen, and what is left is free. -/
def CutAtHyphen (taken : Text → Bool) (s : Text) : Prop :=
  60 < s.length ∧ s[59]? = some '-' ∧ taken (s.take 60) = false

instance : Decidable (CutAtHyphen taken s) := inferInstanceAs (Decidable (_ ∧ _ ∧ _))

/-- The first sixty characters of a text that is a slug but for its length. -/
theorem slugPattern_take (h : Slugged s) :
    slugPattern (s.take 60) = true ↔ ¬ (60 < s.length ∧ s[59]? = some '-') := by
  have hcut := h.toBegun.take (n := 60) (by decide)
  have hlength : (s.take 60).length ≤ 64 := by
    rw [List.length_take]
    omega
  rw [slugPattern_iff]
  by_cases hlong : 60 < s.length
  · have hget : s[59]? = some s[59] := List.getElem?_eq_getElem (by omega)
    have hlast : (s.take 60).getLast? = s[59]? := by
      rw [List.getLast?_take, if_neg (by decide), hget]
      rfl
    rw [hlast, hget, Option.any_some, Option.some.injEq]
    constructor
    · rintro ⟨-, -, -, hslug⟩ ⟨-, heq⟩
      rw [heq] at hslug
      exact absurd hslug (by decide)
    · intro hnot
      exact ⟨hcut.chars, hlength, hcut.head,
        slugChar_of_hyphenated (h.chars _ (List.getElem_mem _)) fun heq => hnot ⟨hlong, heq⟩⟩
  · have hall : s.take 60 = s := List.take_of_length_le (by omega)
    rw [hall] at hlength ⊢
    exact iff_of_true ⟨h.chars, hlength, h.head, h.last⟩ fun hcutoff => hlong hcutoff.1

/-- The bare base, or a suffix. -/
theorem firstFree_slug (h : Slugged s) (maxAttempts : Nat) :
    slugPattern (firstFree taken draws maxAttempts (s.take 60)) = true ↔ ¬ CutAtHyphen taken s := by
  unfold firstFree CutAtHyphen
  cases htaken : taken (s.take 60) with
  | true =>
    rw [if_pos rfl]
    exact iff_of_true (suffixed_slug (h.toBegun.take (by decide)) maxAttempts 0) (by simp)
  | false =>
    rw [if_neg Bool.false_ne_true, slugPattern_take h]
    simp

/-! ## The derived slugs -/

theorem slugged_user : Slugged "user".toList := ⟨⟨List.all_eq_true.mp (by decide), by decide⟩, by decide⟩

theorem slugged_agent : Slugged "agent".toList := ⟨⟨List.all_eq_true.mp (by decide), by decide⟩, by decide⟩

/-- A derived slug matches the pattern unless the normalized text has a hyphen at its sixtieth
character, more after it, and the cut is free. -/
theorem derived_slug_iff (lower : Text → Text) (taken : Text → Bool) (draws : Nat → Uuid)
    (maxAttempts : Nat) :
    (∀ email, slugPattern (deriveUserSlug lower taken draws email maxAttempts) = true ↔
      ¬ CutAtHyphen taken (normalize lower "user".toList (localPart email))) ∧
    (∀ displayName,
      slugPattern (deriveAgentSlug lower taken draws displayName none maxAttempts) = true ↔
        ¬ CutAtHyphen taken (normalize lower "agent".toList displayName)) :=
  ⟨fun email => firstFree_slug (normalize_slugged slugged_user (localPart email)) maxAttempts,
    fun displayName => firstFree_slug (normalize_slugged slugged_agent displayName) maxAttempts⟩

/-- The dot is the sixtieth character of the local part. -/
theorem derived_slug_ends_in_hyphen :
    let email := List.replicate 59 'a' ++ ".b@example.com".toList
    let lower := List.map Char.toLower
    deriveUserSlug lower (fun _ => false) (fun _ => 0) email = List.replicate 59 'a' ++ ['-'] ∧
      ¬ ∀ (lower : Text → Text) (taken : Text → Bool) (draws : Nat → Uuid) (email : Text),
        slugPattern (deriveUserSlug lower taken draws email) = true := by
  refine ⟨by decide +kernel, fun h => ?_⟩
  have hslug := h (List.map Char.toLower) (fun _ => false) (fun _ => 0)
    (List.replicate 59 'a' ++ ".b@example.com".toList)
  revert hslug
  decide +kernel

end CueApi.DerivedSlugs
