import CueApi.Library.PyJsonDumps

/-! How the scanner of `json.loads` takes the strings, numerals and words that `json.dumps` writes. -/

namespace PyJson

/-! ## Strings -/

/-- Pairs of surrogates become one character. -/
def joinSurrogates (s : Text) : Text := pair16 (s.map Fin.val)

/-- Some high surrogate is followed by a low one. -/
def paired : Text → Bool
  | c :: d :: s => (highSurrogate c.val && lowSurrogate d.val) || paired (d :: s)
  | _ => false

/-- The units that the escapes of a character are read as. -/
def unitsOf (c : CodePoint) : List StrUnit :=
  if (shortEscape c.val).isSome = true ∨ (0x20 ≤ c.val ∧ c.val ≤ 0x7e) then [.char c]
  else if c.val < 0x10000 then [.escaped c.val]
  else [.escaped (0xd800 + (c.val - 0x10000) / 1024), .escaped (0xdc00 + (c.val - 0x10000) % 1024)]

theorem point_val (c : CodePoint) : point c.val = c := by
  apply Fin.ext
  exact Nat.mod_eq_of_lt c.isLt

theorem hexValue_hexDigit (n : Nat) : hexValue (hexDigit n) = some (n % 16) := by
  have hlt : n % 16 < 16 := Nat.mod_lt n (by decide)
  unfold hexDigit
  generalize n % 16 = d at hlt
  revert d
  decide

theorem hex4_hexDigit {u : Nat} (hu : u < 0x10000) :
    hex4 (hexDigit (u / 4096)) (hexDigit (u / 256)) (hexDigit (u / 16)) (hexDigit u) = some u := by
  simp only [hex4, hexValue_hexDigit, bind, Option.bind, pure]
  congr 1
  omega

theorem unescape_shortEscape {c letter : CodePoint} (h : shortEscape c.val = some letter) :
    unescape letter.val = some c ∧ letter.val ≠ 0x75 := by
  unfold shortEscape at h
  split_ifs at h with h1 h2 h3 h4 h5 h6 h7
  all_goals
    cases h
    refine ⟨?_, by decide⟩
    rw [← point_val c]
    simp only [*]
    decide

section Units

variable {s rest : Text} {us : List StrUnit} (hs : scanUnits s = .ok (us, rest))
include hs

theorem scanUnits_char {c : CodePoint} (hquote : c.val ≠ 0x22) (hctrl : ¬ c.val < 0x20)
    (hslash : c.val ≠ 0x5c) : scanUnits (c :: s) = .ok (.char c :: us, rest) := by
  rw [scanUnits.eq_def]
  dsimp only
  rw [if_neg hquote, if_neg hctrl, if_pos hslash, hs]
  rfl

theorem scanUnits_short {c letter : CodePoint} (h : shortEscape c.val = some letter) :
    scanUnits (0x5c :: letter :: s) = .ok (.char c :: us, rest) := by
  obtain ⟨hletter, hu⟩ := unescape_shortEscape h
  rw [scanUnits.eq_def]
  dsimp only
  rw [if_neg (by decide), if_neg (by decide), if_neg (by decide), if_pos hu, hletter]
  dsimp only
  rw [hs]
  rfl

theorem scanUnits_hex {u : Nat} (hu : u < 0x10000) :
    scanUnits (hexEscape u ++ s) = .ok (.escaped u :: us, rest) := by
  simp only [hexEscape, List.cons_append, List.nil_append]
  rw [scanUnits.eq_def]
  dsimp only
  rw [if_neg (by decide), if_neg (by decide), if_neg (by decide), if_neg (by decide), hex4_hexDigit hu]
  dsimp only
  rw [hs]
  rfl

theorem scanUnits_escape (c : CodePoint) : scanUnits (asciiEscape c ++ s) = .ok (unitsOf c ++ us, rest) := by
  unfold asciiEscape unitsOf
  cases hshort : shortEscape c.val with
  | some letter =>
    simp only [Option.isSome_some, true_or, if_true]
    exact scanUnits_short hs hshort
  | none =>
    simp only [Option.isSome_none, Bool.false_eq_true, false_or]
    split_ifs with hprint hplane
    · have hquote : c.val ≠ 0x22 := fun hc => by rw [hc] at hshort; cases hshort
      have hslash : c.val ≠ 0x5c := fun hc => by rw [hc] at hshort; cases hshort
      exact scanUnits_char hs hquote (by omega) hslash
    · exact scanUnits_hex hs hplane
    · have hc := c.isLt
      rw [List.append_assoc]
      exact scanUnits_hex (scanUnits_hex hs (by omega)) (by omega)

end Units

theorem scanUnits_quoted (s rest : Text) :
    scanUnits (s.flatMap asciiEscape ++ 0x22 :: rest) = .ok (s.flatMap unitsOf, rest) := by
  induction s with
  | nil =>
    rw [List.flatMap_nil, List.nil_append, scanUnits.eq_def]
    rfl
  | cons c s ih =>
    rw [List.flatMap_cons, List.flatMap_cons, List.append_assoc]
    exact scanUnits_escape ih c

theorem joinUnits_alone {u : Nat} {us : List StrUnit}
    (halone : ∀ v us', us = .escaped v :: us' → (highSurrogate u && lowSurrogate v) = false) :
    joinUnits (.escaped u :: us) = point u :: joinUnits us := by
  match us with
  | [] => rfl
  | .char c :: us => rfl
  | .escaped v :: us =>
    rw [joinUnits, halone v us rfl]
    rfl

theorem joinSurrogates_alone {c : CodePoint} {s : Text}
    (halone : ∀ d s', s = d :: s' → (highSurrogate c.val && lowSurrogate d.val) = false) :
    joinSurrogates (c :: s) = c :: joinSurrogates s := by
  unfold joinSurrogates
  match s with
  | [] => exact congrArg (fun d => [d]) (point_val c)
  | d :: s =>
    rw [List.map_cons, List.map_cons, pair16, halone d s rfl, point_val]
    rfl

/-- Only a low surrogate is read as the unit of one. -/
theorem units_low {s : Text} {v : Nat} {us : List StrUnit} (h : s.flatMap unitsOf = .escaped v :: us)
    (hv : lowSurrogate v = true) : ∃ d s', s = d :: s' ∧ d.val = v := by
  simp only [lowSurrogate, Bool.and_eq_true, decide_eq_true_eq] at hv
  cases s with
  | nil => cases h
  | cons d s =>
    rw [List.flatMap_cons, unitsOf] at h
    split_ifs at h with hchar hplane
    · cases h
    · cases h
      exact ⟨d, s, rfl, rfl⟩
    · cases h
      have hd := d.isLt
      omega

theorem unitsOf_surrogate {d : CodePoint} (hd : 0xd800 ≤ d.val ∧ d.val < 0x10000) :
    unitsOf d = [.escaped d.val] := by
  unfold unitsOf
  have hshort : shortEscape d.val = none := by
    unfold shortEscape
    split_ifs <;> first | rfl | omega
  rw [hshort, if_neg (by simp only [Option.isSome_none, Bool.false_eq_true, false_or]; omega),
    if_pos hd.2]

theorem joinUnits_units : (s : Text) → joinUnits (s.flatMap unitsOf) = joinSurrogates s
  | [] => rfl
  | c :: s => by
    have ih := joinUnits_units s
    by_cases hpair : ∃ d s', s = d :: s' ∧ (highSurrogate c.val && lowSurrogate d.val) = true
    · obtain ⟨d, s', rfl, hcd⟩ := hpair
      have ih' := joinUnits_units s'
      have hsurrogates := hcd
      simp only [highSurrogate, lowSurrogate, Bool.and_eq_true, decide_eq_true_eq] at hsurrogates
      rw [List.flatMap_cons, List.flatMap_cons, unitsOf_surrogate (by omega), unitsOf_surrogate (by omega),
        List.singleton_append, List.singleton_append, joinUnits, hcd, if_pos rfl, ih']
      unfold joinSurrogates
      rw [List.map_cons, List.map_cons, pair16, hcd, if_pos rfl]
    · have halone : ∀ d s', s = d :: s' → (highSurrogate c.val && lowSurrogate d.val) = false := by
        intro d s' hs
        by_contra hcd
        exact hpair ⟨d, s', hs, by simpa using hcd⟩
      rw [joinSurrogates_alone halone, List.flatMap_cons, ← ih]
      by_cases hchar : (shortEscape c.val).isSome = true ∨ (0x20 ≤ c.val ∧ c.val ≤ 0x7e)
      · rw [unitsOf, if_pos hchar, List.singleton_append, joinUnits]
      by_cases hplane : c.val < 0x10000
      · rw [unitsOf, if_neg hchar, if_pos hplane, List.singleton_append, joinUnits_alone, point_val]
        intro v us' hus
        rw [Bool.and_eq_false_iff, or_iff_not_imp_right, Bool.not_eq_false]
        intro hv
        obtain ⟨d, s', hs, rfl⟩ := units_low hus hv
        simpa only [hv, Bool.and_true] using halone d s' hs
      · rw [unitsOf, if_neg hchar, if_neg hplane]
        have hc := c.isLt
        have hjoined : 0x10000 + (0xd800 + (c.val - 0x10000) / 1024 - 0xd800) * 1024 +
            (0xdc00 + (c.val - 0x10000) % 1024 - 0xdc00) = c.val := by omega
        rw [List.cons_append, List.singleton_append, joinUnits, if_pos, pairPoint, hjoined, point_val]
        simp only [highSurrogate, lowSurrogate, Bool.and_eq_true, decide_eq_true_eq]
        omega

theorem scanString_quoted (s rest : Text) :
    scanString (s.flatMap asciiEscape ++ 0x22 :: rest) = .ok (joinSurrogates s, rest) := by
  unfold scanString
  rw [scanUnits_quoted]
  exact congrArg (fun t => Except.ok (t, rest)) (joinUnits_units s)

/-- Without such a pair the text stays; each pair makes it shorter. -/
theorem joinSurrogates_cases : (s : Text) → (paired s = false ∧ joinSurrogates s = s) ∨
    (paired s = true ∧ (joinSurrogates s).length < s.length)
  | [] => .inl ⟨rfl, rfl⟩
  | [c] => .inl ⟨rfl, congrArg (fun d => [d]) (point_val c)⟩
  | c :: d :: s => by
    cases hcd : highSurrogate c.val && lowSurrogate d.val with
    | true =>
      have hlength : (joinSurrogates (c :: d :: s)).length = (joinSurrogates s).length + 1 := by
        unfold joinSurrogates
        rw [List.map_cons, List.map_cons, pair16, hcd, if_pos rfl, List.length_cons]
      refine .inr ⟨by rw [paired, hcd, Bool.true_or], ?_⟩
      rw [hlength, List.length_cons, List.length_cons]
      rcases joinSurrogates_cases s with ⟨-, hs⟩ | ⟨-, hs⟩
      · rw [hs]
        omega
      · omega
    | false =>
      have halone : ∀ e s', d :: s = e :: s' → (highSurrogate c.val && lowSurrogate e.val) = false := by
        intro e s' hs
        cases hs
        exact hcd
      rw [joinSurrogates_alone halone, paired, hcd, Bool.false_or]
      rcases joinSurrogates_cases (d :: s) with ⟨hpaired, hs⟩ | ⟨hpaired, hs⟩
      · exact .inl ⟨hpaired, by rw [hs]⟩
      · exact .inr ⟨hpaired, Nat.succ_lt_succ hs⟩

theorem joinSurrogates_eq_iff (s : Text) : joinSurrogates s = s ↔ paired s = false := by
  rcases joinSurrogates_cases s with ⟨hpaired, hs⟩ | ⟨hpaired, hs⟩
  · exact iff_of_true hs hpaired
  · rw [hpaired]
    refine iff_of_false (fun h => ?_) Bool.true_eq_false.mp
    rw [h] at hs
    exact Nat.lt_irrefl _ hs

/-! ## Numbers -/

/-- What may follow a value. -/
def Delimited (s : Text) : Prop := ∀ c ∈ s.head?, c.val = 0x2c ∨ c.val = 0x5d ∨ c.val = 0x7d

theorem span_digits {ds rest : Text} (hds : ∀ c ∈ ds, isDigit c = true)
    (hrest : ∀ c ∈ rest.head?, isDigit c = false) :
    (ds ++ rest).takeWhile isDigit = ds ∧ (ds ++ rest).dropWhile isDigit = rest := by
  rw [List.takeWhile_append_of_pos hds, List.dropWhile_append_of_pos hds]
  cases rest with
  | nil => exact ⟨List.append_nil ds, rfl⟩
  | cons c rest =>
    have hc : ¬ isDigit c = true := by rw [hrest c rfl]; exact Bool.false_ne_true
    rw [List.takeWhile_cons_of_neg hc, List.dropWhile_cons_of_neg hc]
    exact ⟨List.append_nil ds, rfl⟩

theorem lexInt_digits {ds rest : Text} (hds : ∀ c ∈ ds, isDigit c = true) (hne : ds ≠ [])
    (hzero : ds.head?.any (fun c => c.val = 0x30) = true → ds.length = 1)
    (hrest : ∀ c ∈ rest.head?, isDigit c = false) : lexInt (ds ++ rest) = some (ds, rest) := by
  cases ds with
  | nil => exact absurd rfl hne
  | cons d ds =>
    rw [List.cons_append, lexInt]
    split
    · rename_i hd
      have hnil : ds = [] := by simpa [hd] using hzero
      rw [hnil, List.nil_append]
    · obtain ⟨htake, hdrop⟩ := span_digits (fun c hc => hds c (List.mem_cons_of_mem _ hc)) hrest
      rw [if_pos (hds d List.mem_cons_self), htake, hdrop]

theorem lexFraction_none {s : Text} (hs : ∀ c ∈ s.head?, c.val ≠ 0x2e) : lexFraction s = ([], s) := by
  cases s with
  | nil => rfl
  | cons c s => rw [lexFraction, if_neg fun h => hs c rfl h.1]

theorem lexFraction_digits {ds rest : Text} (hds : ∀ c ∈ ds, isDigit c = true) (hne : ds ≠ [])
    (hrest : ∀ c ∈ rest.head?, isDigit c = false) :
    lexFraction (0x2e :: ds ++ rest) = (0x2e :: ds, rest) := by
  obtain ⟨htake, hdrop⟩ := span_digits hds hrest
  rw [List.cons_append, lexFraction, htake, hdrop, if_pos ⟨rfl, hne⟩]

theorem lexExponent_none {s : Text} (hs : ∀ c ∈ s.head?, c.val ≠ 0x65 ∧ c.val ≠ 0x45) :
    lexExponent s = ([], s) := by
  cases s with
  | nil => rfl
  | cons c s => rw [lexExponent, if_neg fun h => h.1.elim (hs c rfl).1 (hs c rfl).2]

theorem sign_digits {plus ds : Text} (hplus : plus = [] ∨ plus = [0x2b] ∨ plus = [0x2d])
    (hds : ∀ c ∈ ds.head?, isDigit c = true) : sign (plus ++ ds) = (plus, ds) := by
  rcases hplus with rfl | rfl | rfl
  · cases ds with
    | nil => rfl
    | cons d ds =>
      have hd := hds d rfl
      simp only [isDigit, Bool.and_eq_true, decide_eq_true_eq] at hd
      rw [List.nil_append, sign, if_neg (by omega)]
  · rfl
  · rfl

theorem lexExponent_digits {e : CodePoint} {plus ds rest : Text} (he : e.val = 0x65 ∨ e.val = 0x45)
    (hplus : plus = [] ∨ plus = [0x2b] ∨ plus = [0x2d]) (hne : ds ≠ [])
    (hds : ∀ c ∈ ds, isDigit c = true) (hrest : ∀ c ∈ rest.head?, isDigit c = false) :
    lexExponent (e :: plus ++ ds ++ rest) = (e :: plus ++ ds, rest) := by
  obtain ⟨htake, hdrop⟩ := span_digits hds hrest
  have hsign : sign (plus ++ (ds ++ rest)) = (plus, ds ++ rest) := by
    apply sign_digits hplus
    intro c hc
    rw [List.head?_append_of_ne_nil _ hne] at hc
    exact hds c (List.mem_of_mem_head? hc)
  rw [List.append_assoc, List.cons_append, lexExponent, hsign, htake, hdrop, if_pos ⟨he, hne⟩]

namespace Numeral

variable {n : Numeral} (hn : n.WellFormed) {rest : Text} (hrest : Delimited rest)
include hn hrest

theorem exponent_head : ∀ c ∈ (n.exponent ++ rest).head?, isDigit c = false ∧ c.val ≠ 0x2e := by
  intro c hc
  have hval : c.val = 0x65 ∨ c.val = 0x45 ∨ c.val = 0x2c ∨ c.val = 0x5d ∨ c.val = 0x7d := by
    rcases hn.exponent with hnone | ⟨e, plus, ds, hsome, he, -⟩
    · rw [hnone, List.nil_append] at hc
      exact .inr (.inr (hrest c hc))
    · rw [hsome] at hc
      cases hc
      omega
  simp only [isDigit, Bool.and_eq_false_iff, decide_eq_false_iff_not]
  omega

theorem fraction_head : ∀ c ∈ (n.fraction ++ (n.exponent ++ rest)).head?, isDigit c = false := by
  intro c hc
  rcases hn.fraction with hnone | ⟨ds, hsome, -⟩
  · rw [hnone, List.nil_append] at hc
    exact (exponent_head hn hrest c hc).1
  · rw [hsome] at hc
    cases hc
    rfl

theorem lexExponent_text : lexExponent (n.exponent ++ rest) = (n.exponent, rest) := by
  rcases hn.exponent with hnone | ⟨e, plus, ds, hsome, he, hplus, hne, hds⟩
  · rw [hnone, List.nil_append]
    apply lexExponent_none
    intro c hc
    have := hrest c hc
    omega
  · rw [hsome]
    apply lexExponent_digits he hplus hne hds
    intro c hc
    have := hrest c hc
    simp only [isDigit, Bool.and_eq_false_iff, decide_eq_false_iff_not]
    omega

theorem lexFraction_text :
    lexFraction (n.fraction ++ (n.exponent ++ rest)) = (n.fraction, n.exponent ++ rest) := by
  have hhead := exponent_head hn hrest
  rcases hn.fraction with hnone | ⟨ds, hsome, hne, hds⟩
  · rw [hnone, List.nil_append]
    exact lexFraction_none fun c hc => (hhead c hc).2
  · rw [hsome]
    exact lexFraction_digits hds hne fun c hc => (hhead c hc).1

theorem lexNumeral_text : lexNumeral (n.text ++ rest) = some (n, rest) := by
  obtain ⟨hds, hne, hzero⟩ := hn.digits
  have hint := lexInt_digits hds hne hzero (fraction_head hn hrest)
  have hfraction := lexFraction_text hn hrest
  have hexponent := lexExponent_text hn hrest
  obtain ⟨minus, digits, fraction, exponent⟩ := n
  have hhead : (digits ++ (fraction ++ (exponent ++ rest))).head?.any (fun c => c.val = 0x2d) = false := by
    cases digits with
    | nil => exact absurd rfl hne
    | cons d ds =>
      have hd := hds d List.mem_cons_self
      simp only [isDigit, Bool.and_eq_true, decide_eq_true_eq] at hd
      exact decide_eq_false (by omega)
  unfold lexNumeral text
  rw [List.append_assoc, List.append_assoc, List.append_assoc]
  cases minus with
  | true =>
    simp only [if_true, List.singleton_append, List.head?_cons, Option.any_some, List.tail_cons,
      show ((0x2d : CodePoint).val = 0x2d) from rfl, decide_true, hint, Option.map_some, hfraction,
      hexponent]
  | false =>
    simp only [Bool.false_eq_true, if_false, List.nil_append, hhead, hint, Option.map_some, hfraction,
      hexponent]

end Numeral

theorem length_text (s : String) : (text s).length = s.length := by
  rw [text, List.length_map, String.length_toList]

/-- A word's first character tells it from what begins with another. -/
theorem after_mismatch {word : String} {w c : CodePoint} {ws s : Text} (hword : text word = w :: ws)
    (hw : w ≠ c) : after word (c :: s) = none := by
  unfold after
  rw [hword, if_neg]
  rintro ⟨t, ht⟩
  exact hw (List.cons.inj ht).1

theorem after_word (word : String) (s : Text) : after word (text word ++ s) = some s := by
  unfold after
  rw [if_pos (List.prefix_append _ _), ← length_text, List.drop_left]

/-! ## Words and numerals -/

section Values

variable (floats : Floats) (levels : Nat)

theorem scanOnce_literal {c : CodePoint} {s : Text} (hquote : c.val ≠ 0x22) (hbrace : c.val ≠ 0x7b)
    (hbracket : c.val ≠ 0x5b) : scanOnce floats levels (c :: s) = scanLiteral floats (c :: s) := by
  rw [scanOnce.eq_def]
  dsimp only
  rw [if_neg hquote, if_neg hbrace, if_neg hbracket]

/-- A numeral begins with a digit, or with a minus sign and a digit. -/
theorem Numeral.text_head {n : Numeral} (hn : n.WellFormed) (rest : Text) :
    ∃ c s, n.text ++ rest = c :: s ∧
      (isDigit c = true ∨ c = 0x2d ∧ ∃ d s', s = d :: s' ∧ isDigit d = true) := by
  obtain ⟨hds, hne, -⟩ := hn.digits
  obtain ⟨minus, digits, fraction, exponent⟩ := n
  cases digits with
  | nil => exact absurd rfl hne
  | cons d ds =>
    have hd := hds d List.mem_cons_self
    cases minus with
    | true => exact ⟨_, _, rfl, .inr ⟨rfl, _, _, rfl, hd⟩⟩
    | false => exact ⟨_, _, rfl, .inl hd⟩

theorem scanLiteral_number {c : CodePoint} {s : Text}
    (hc : isDigit c = true ∨ c = 0x2d ∧ ∃ d s', s = d :: s' ∧ isDigit d = true) :
    scanLiteral floats (c :: s) = scanNumeral floats (c :: s) := by
  have hletter : c ≠ 0x6e ∧ c ≠ 0x74 ∧ c ≠ 0x66 ∧ c ≠ 0x4e ∧ c ≠ 0x49 := by
    refine ⟨?_, ?_, ?_, ?_, ?_⟩
    all_goals
      rintro rfl
      rcases hc with hdigit | ⟨heq, -⟩
      · revert hdigit
        decide
      · revert heq
        decide
  have hinfinity : after "-Infinity" (c :: s) = none := by
    rcases hc with hdigit | ⟨rfl, d, s', rfl, hd⟩
    · refine after_mismatch rfl ?_
      rintro rfl
      revert hdigit
      decide
    · unfold after
      rw [if_neg]
      rintro ⟨t, ht⟩
      have hI : (0x49 : CodePoint) = d := (List.cons.inj (List.cons.inj ht).2).1
      rw [← hI] at hd
      revert hd
      decide
  obtain ⟨hn, ht, hf, hN, hI⟩ := hletter
  rw [scanLiteral, after_mismatch rfl hn.symm, after_mismatch rfl ht.symm, after_mismatch rfl hf.symm,
    after_mismatch rfl hN.symm, after_mismatch rfl hI.symm, hinfinity]

/-- A numeral is read as a whole. -/
theorem scanOnce_numeral {n : Numeral} (hn : n.WellFormed) {rest : Text} (hrest : Delimited rest) {x : Value}
    (hx : n.value floats = .ok x) : scanOnce floats levels (n.text ++ rest) = .ok (x, rest) := by
  have hlex := Numeral.lexNumeral_text hn hrest
  obtain ⟨c, s, htext, hc⟩ := Numeral.text_head hn rest
  have hval : c.val ≠ 0x22 ∧ c.val ≠ 0x7b ∧ c.val ≠ 0x5b := by
    rcases hc with hdigit | ⟨rfl, -⟩
    · simp only [isDigit, Bool.and_eq_true, decide_eq_true_eq] at hdigit
      omega
    · decide
  rw [htext] at hlex ⊢
  rw [scanOnce_literal floats levels hval.1 hval.2.1 hval.2.2, scanLiteral_number floats hc, scanNumeral, hlex]
  simp only [hx, bind, Except.bind, pure, Except.pure]

theorem readDecimal_repr (n : Nat) : readDecimal (text n.repr) = n := by
  rw [readDecimal, text, List.foldl_map, Nat.toList_repr]
  simp only [char_val]
  exact Nat.ofDigitChars_ten_toDigits

theorem toDigits_head {n : Nat} (hn : n ≠ 0) : (Nat.toDigits 10 n).head? ≠ some '0' := by
  induction n using Nat.strong_induction_on with
  | _ n ih =>
    by_cases hlt : n < 10
    · have hdigit : ∀ d < 10, d ≠ 0 → [Nat.digitChar d].head? ≠ some '0' := by decide
      rw [Nat.toDigits_of_lt_base hlt]
      exact hdigit n hlt hn
    · rw [Nat.toDigits_of_base_le (by omega) (by omega), List.head?_append_of_ne_nil _ Nat.toDigits_ne_nil]
      exact ih (n / 10) (by omega) (by omega)

/-- The numeral that an integer is written as. -/
def intNumeral (n : Int) : Numeral := ⟨n < 0, text n.natAbs.repr, [], []⟩

theorem intNumeral_text (n : Int) : (intNumeral n).text = text (toString n) := by
  rw [text_int, Numeral.text, intNumeral]
  simp only [decide_eq_true_eq, List.append_nil]

theorem intNumeral_wellFormed (n : Int) : (intNumeral n).WellFormed := by
  refine ⟨⟨isDigit_repr _, ?_, ?_⟩, .inl rfl, .inl rfl⟩
  · intro hnil
    have hlength := congrArg List.length hnil
    have hpos : 0 < n.natAbs.repr.length := Nat.length_repr_pos
    rw [intNumeral, length_text, List.length_nil] at hlength
    omega
  · intro hzero
    by_cases hn : n.natAbs = 0
    · rw [intNumeral, hn]
      rfl
    · exfalso
      refine toDigits_head hn ?_
      rw [intNumeral, text, Nat.toList_repr, List.head?_map, Option.any_map] at hzero
      cases hhead : (Nat.toDigits 10 n.natAbs).head? with
      | none =>
        rw [hhead] at hzero
        cases hzero
      | some c =>
        rw [hhead, Option.any_some] at hzero
        simp only [char_val, decide_eq_true_eq] at hzero
        have hc : c.toNat = '0'.toNat := hzero
        rw [Char.toNat_inj.mp hc]

theorem intNumeral_value {n : Int} (hn : n.natAbs < 10 ^ maxStrDigits) :
    (intNumeral n).value floats = .ok (.int n) := by
  have hlength : (intNumeral n).digits.length ≤ maxStrDigits := by
    rw [intNumeral, length_text]
    exact (Nat.length_repr_le_iff (by decide)).mpr hn
  have hint : (intNumeral n).isInt = true := rfl
  rw [Numeral.value, if_pos hint, if_neg (by omega), intNumeral, readDecimal_repr]
  simp only [decide_eq_true_eq]
  congr 2
  split
  · omega
  · omega

end Values

end PyJson
