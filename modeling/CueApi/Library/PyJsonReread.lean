import CueApi.Library.PyJsonScan

/-! What `json.loads` makes of what `json.dumps` writes: the value, except that a high surrogate before a
low one becomes the character of the two. -/

namespace PyJson

/-! ## Lists and dictionaries -/

/-- The text is scanned as the value, whatever follows, and nothing before it is skipped. -/
structure Scans (scan : Text → Except LoadError (Value × Text)) (t : Text) (x : Value) : Prop where
  scan : ∀ rest, Delimited rest → scan (t ++ rest) = .ok (x, rest)
  head : ∃ c s, t = c :: s ∧ whitespace c = false ∧ c.val ≠ 0x5d

theorem skip_head {c : CodePoint} {s : Text} (hc : whitespace c = false) : skip (c :: s) = c :: s := by
  rw [skip, List.dropWhile_cons_of_neg (by rw [hc]; exact Bool.false_ne_true)]

theorem length_intercalate {ts : List Text} (hts : ∀ t ∈ ts, t ≠ []) (sep : Text) :
    ts.length ≤ (sep.intercalate ts).length := by
  induction ts with
  | nil => exact Nat.zero_le _
  | cons t ts ih =>
    have ht := List.length_pos_iff.mpr (hts t List.mem_cons_self)
    have hrest := ih fun t' ht' => hts t' (List.mem_cons_of_mem _ ht')
    cases ts with
    | nil =>
      rw [List.intercalate_singleton]
      exact ht
    | cons t' ts =>
      rw [List.intercalate_cons_cons, List.length_append, List.length_append, List.length_cons]
      omega

/-- What is written behind an element is a comma and the next one. -/
theorem intercalate_head (t : Text) (ts : List Text) (sep rest : Text) :
    ∃ tail, sep.intercalate (t :: ts) ++ rest = t ++ tail := by
  cases ts with
  | nil => exact ⟨rest, by rw [List.intercalate_singleton]⟩
  | cons t' ts =>
    exact ⟨sep ++ sep.intercalate (t' :: ts) ++ rest, by
      rw [List.intercalate_cons_cons, List.append_assoc, List.append_assoc, List.append_assoc]⟩

section Loops

variable {scan : Text → Except LoadError (Value × Text)}

theorem scanElements_last {t : Text} {x : Value} (h : Scans scan t x) (n : Nat) (acc : List Value)
    (rest : Text) : scanElements scan (n + 1) acc (t ++ 0x5d :: rest) = .ok (.list (acc ++ [x]), rest) := by
  have hscan := h.scan (0x5d :: rest) fun c hc => by cases hc; decide
  rw [scanElements, hscan]
  rfl

theorem scanElements_more {t : Text} {x : Value} (h : Scans scan t x) (n : Nat) (acc : List Value)
    (s : Text) : scanElements scan (n + 1) acc (t ++ 0x2c :: s) = scanElements scan n (acc ++ [x]) (skip s) := by
  have hscan := h.scan (0x2c :: s) fun c hc => by cases hc; decide
  rw [scanElements, hscan]
  rfl

/-- The loop reads the elements that are written, a round each. -/
theorem scanElements_written {ts : List Text} {xs : List Value} (h : List.Forall₂ (Scans scan) ts xs) :
    ∀ (n : Nat) (acc : List Value) (rest : Text), ts ≠ [] → ts.length ≤ n →
      scanElements scan n acc (plain.comma.intercalate ts ++ 0x5d :: rest) = .ok (.list (acc ++ xs), rest) := by
  induction h with
  | nil => intro n acc rest hne; exact absurd rfl hne
  | @cons t x ts xs ht hts ih =>
    intro n acc rest _ hn
    obtain ⟨n, rfl⟩ : ∃ m, n = m + 1 := ⟨n - 1, by rw [List.length_cons] at hn; omega⟩
    cases hts with
    | nil =>
      rw [List.intercalate_singleton]
      exact scanElements_last ht n acc rest
    | @cons t' x' ts xs ht' hts =>
      obtain ⟨c, s, htext, hc, -⟩ := ht'.head
      obtain ⟨tail, htail⟩ := intercalate_head t' ts plain.comma (0x5d :: rest)
      have hskip : skip (0x20 :: (plain.comma.intercalate (t' :: ts) ++ 0x5d :: rest)) =
          plain.comma.intercalate (t' :: ts) ++ 0x5d :: rest := by
        rw [htail, htext, List.cons_append]
        exact skip_head hc
      have hnext := ih n (acc ++ [x]) rest (List.cons_ne_nil _ _) (by simpa using hn)
      rw [List.intercalate_cons_cons, List.append_assoc, List.append_assoc]
      have hcomma := scanElements_more ht n acc (0x20 :: (plain.comma.intercalate (t' :: ts) ++ 0x5d :: rest))
      rw [hskip, hnext, List.append_assoc] at hcomma
      exact hcomma

theorem written_ne_nil {ts : List Text} {xs : List Value} (h : List.Forall₂ (Scans scan) ts xs) :
    ∀ t ∈ ts, t ≠ [] := by
  induction h with
  | nil => exact fun t ht => absurd ht List.not_mem_nil
  | cons ht _ ih =>
    obtain ⟨c, s, htext, -⟩ := ht.head
    intro t' ht'
    rcases List.mem_cons.mp ht' with rfl | hmem
    · rw [htext]
      exact List.cons_ne_nil c s
    · exact ih t' hmem

theorem scanArray_written {ts : List Text} {xs : List Value} (h : List.Forall₂ (Scans scan) ts xs)
    (rest : Text) :
    scanArray scan (plain.comma.intercalate ts ++ 0x5d :: rest) = .ok (.list xs, rest) := by
  cases h with
  | nil => rfl
  | @cons t x ts xs ht hts =>
    obtain ⟨c, s, htext, hc, hclose⟩ := ht.head
    obtain ⟨tail, htail⟩ := intercalate_head t ts plain.comma (0x5d :: rest)
    have hfuel := length_intercalate (written_ne_nil (.cons ht hts)) plain.comma
    have hloop := scanElements_written (.cons ht hts) (plain.comma.intercalate (t :: ts) ++ 0x5d :: rest).length []
      rest (List.cons_ne_nil _ _) (by rw [List.length_append]; omega)
    rw [htail, htext, List.cons_append] at hloop ⊢
    rw [scanArray, skip_head hc]
    dsimp only
    rw [if_neg hclose, hloop, List.nil_append]

/-- A key is quoted, and its value comes behind a colon. -/
structure ScansMember (scan : Text → Except LoadError (Value × Text)) (written : Text × Text)
    (read : Text × Value) : Prop where
  key : read.1 = joinSurrogates written.1
  value : Scans scan written.2 read.2

def setItems (entries : List (Text × Value)) (read : List (Text × Value)) : List (Text × Value) :=
  read.foldl (fun dct entry => setItem entry.1 entry.2 dct) entries

theorem scanMembers_one {w : Text × Text} {r : Text × Value} (h : ScansMember scan w r) (n : Nat)
    (acc : List (Text × Value)) {c : CodePoint} {s : Text} (hc : c.val = 0x2c ∨ c.val = 0x7d) :
    scanMembers scan (n + 1) acc (plain.member w ++ c :: s) =
      if c.val = 0x7d then .ok (.dict (setItem r.1 r.2 acc), s)
      else scanMembers scan n (setItem r.1 r.2 acc) (skip s) := by
  obtain ⟨key, t⟩ := w
  obtain ⟨key', x⟩ := r
  obtain ⟨hkey, hvalue⟩ := h
  change key' = joinSurrogates key at hkey
  change Scans scan t x at hvalue
  subst hkey
  obtain ⟨c', s', htext, hc', -⟩ := hvalue.head
  have hscan := hvalue.scan (c :: s) fun d hd => by cases hd; omega
  have hstring := scanString_quoted key (0x3a :: 0x20 :: (t ++ c :: s))
  have hskip : skip (0x20 :: (t ++ c :: s)) = t ++ c :: s := by
    rw [htext, List.cons_append]
    exact skip_head hc'
  have hdelim : whitespace c = false := by
    simp only [whitespace, Bool.or_eq_false_iff, decide_eq_false_iff_not]
    omega
  have hmember : plain.member (key, t) ++ c :: s =
      0x22 :: (key.flatMap asciiEscape ++ 0x22 :: 0x3a :: 0x20 :: (t ++ c :: s)) := by
    simp only [Style.member, Style.quoted, plain, List.cons_append, List.append_assoc, List.nil_append]
  rw [hmember, scanMembers, if_neg (by decide), hstring]
  simp only [bind, Except.bind]
  rw [skip_head (by rfl)]
  dsimp only
  rw [if_neg (by decide), hskip, hscan]
  dsimp only
  rw [skip_head hdelim]
  dsimp only
  rcases hc with hcomma | hbrace
  · have hne : c.val ≠ 0x7d := by omega
    rw [if_neg hne, if_pos hcomma, if_neg hne]
  · rw [if_pos hbrace, if_pos hbrace]

theorem scanMembers_written {ws : List (Text × Text)} {rs : List (Text × Value)}
    (h : List.Forall₂ (ScansMember scan) ws rs) :
    ∀ (n : Nat) (acc : List (Text × Value)) (rest : Text), ws ≠ [] → ws.length ≤ n →
      scanMembers scan n acc (plain.comma.intercalate (ws.map plain.member) ++ 0x7d :: rest) =
        .ok (.dict (setItems acc rs), rest) := by
  induction h with
  | nil => intro n acc rest hne; exact absurd rfl hne
  | @cons w r ws rs hw hws ih =>
    intro n acc rest _ hn
    obtain ⟨n, rfl⟩ : ∃ m, n = m + 1 := ⟨n - 1, by rw [List.length_cons] at hn; omega⟩
    cases hws with
    | nil =>
      have hbrace : (0x7d : CodePoint).val = 0x7d := rfl
      rw [List.map_singleton, List.intercalate_singleton, scanMembers_one hw n acc (.inr hbrace),
        if_pos hbrace]
      rfl
    | @cons w' r' ws rs hw' hws =>
      have hnext := ih n (setItem r.1 r.2 acc) rest (List.cons_ne_nil _ _) (by simpa using hn)
      obtain ⟨tail, htail⟩ := intercalate_head (plain.member w') (ws.map plain.member) plain.comma
        (0x7d :: rest)
      have hskip : skip (0x20 :: (plain.comma.intercalate ((w' :: ws).map plain.member) ++ 0x7d :: rest)) =
          plain.comma.intercalate ((w' :: ws).map plain.member) ++ 0x7d :: rest := by
        obtain ⟨s, hs⟩ : ∃ s, plain.member w' ++ tail = 0x22 :: s := ⟨_, rfl⟩
        rw [List.map_cons, htail, hs]
        exact skip_head (c := 0x22) rfl
      have hone := scanMembers_one hw n acc (c := 0x2c)
        (s := 0x20 :: (plain.comma.intercalate ((w' :: ws).map plain.member) ++ 0x7d :: rest)) (.inl rfl)
      rw [if_neg (by decide), hskip, hnext] at hone
      rw [List.map_cons, List.map_cons, List.intercalate_cons_cons, List.append_assoc, List.append_assoc]
      exact hone

theorem scanObject_written {ws : List (Text × Text)} {rs : List (Text × Value)}
    (h : List.Forall₂ (ScansMember scan) ws rs) (rest : Text) :
    scanObject scan (plain.comma.intercalate (ws.map plain.member) ++ 0x7d :: rest) =
      .ok (.dict (setItems [] rs), rest) := by
  cases h with
  | nil => rfl
  | @cons w r ws rs hw hws =>
    have hnonempty : ∀ t ∈ (w :: ws).map plain.member, t ≠ [] := by
      intro t ht
      obtain ⟨⟨key, x⟩, -, rfl⟩ := List.mem_map.mp ht
      exact List.cons_ne_nil _ _
    have hfuel := length_intercalate hnonempty plain.comma
    have hloop := scanMembers_written (.cons hw hws)
      (plain.comma.intercalate ((w :: ws).map plain.member) ++ 0x7d :: rest).length [] rest
      (List.cons_ne_nil _ _) (by rw [List.length_append]; rw [List.length_map] at hfuel; omega)
    obtain ⟨tail, htail⟩ := intercalate_head (plain.member w) (ws.map plain.member) plain.comma
      (0x7d :: rest)
    obtain ⟨s, hs⟩ : ∃ s, plain.member w ++ tail = 0x22 :: s := ⟨_, rfl⟩
    rw [List.map_cons, htail, hs] at hloop ⊢
    rw [scanObject, skip_head rfl]
    dsimp only
    rw [if_neg (by decide), hloop]

end Loops

/-! ## The value that is read -/

mutual

/-- The value with the pairs of surrogates of its strings joined. -/
def Value.reread : Value → Value
  | .str s => .str (joinSurrogates s)
  | .list items => .list (rereadItems items)
  | .dict entries => .dict (setItems [] (rereadEntries entries))
  | .null => .null
  | .bool b => .bool b
  | .int n => .int n
  | .float x => .float x

def rereadItems : List Value → List Value
  | [] => []
  | x :: xs => x.reread :: rereadItems xs

def rereadEntries : List (Text × Value) → List (Text × Value)
  | [] => []
  | (key, x) :: xs => (joinSurrogates key, x.reread) :: rereadEntries xs

end

variable (floats : Floats)

mutual

/-- Integers are short enough for `str`, floats are those of numerals, and keys are distinct. -/
def Value.Loaded : Value → Prop
  | .int n => n.natAbs < 10 ^ maxStrDigits
  | .float x => x.isFinite = true → ∃ t, floats.parse t = x
  | .list items => LoadedItems items
  | .dict entries => (entries.map Prod.fst).Nodup ∧ LoadedEntries entries
  | .null | .bool _ | .str _ => True

def LoadedItems : List Value → Prop
  | [] => True
  | x :: xs => x.Loaded ∧ LoadedItems xs

def LoadedEntries : List (Text × Value) → Prop
  | [] => True
  | (_, x) :: xs => x.Loaded ∧ LoadedEntries xs

end

theorem after_other (word word' : String) {w c : CodePoint} {ws s rest : Text} (hword : text word = w :: ws)
    (hword' : text word' = c :: s) (hw : w ≠ c) : after word (text word' ++ rest) = none := by
  rw [hword']
  exact after_mismatch hword hw

/-- The words are told apart by their first characters. -/
theorem scanLiteral_words (rest : Text) :
    scanLiteral floats (text "null" ++ rest) = .ok (.null, rest) ∧
    scanLiteral floats (text "true" ++ rest) = .ok (.bool true, rest) ∧
    scanLiteral floats (text "false" ++ rest) = .ok (.bool false, rest) ∧
    scanLiteral floats (text "NaN" ++ rest) = .ok (.float .nan, rest) ∧
    scanLiteral floats (text "Infinity" ++ rest) = .ok (.float (.infinity false), rest) ∧
    scanLiteral floats (text "-Infinity" ++ rest) = .ok (.float (.infinity true), rest) := by
  refine ⟨?_, ?_, ?_, ?_, ?_, ?_⟩
  · rw [scanLiteral, after_word]
  · rw [scanLiteral, after_other "null" "true" rfl rfl (by decide), after_word]
  · rw [scanLiteral, after_other "null" "false" rfl rfl (by decide),
      after_other "true" "false" rfl rfl (by decide), after_word]
  · rw [scanLiteral, after_other "null" "NaN" rfl rfl (by decide),
      after_other "true" "NaN" rfl rfl (by decide), after_other "false" "NaN" rfl rfl (by decide), after_word]
  · rw [scanLiteral, after_other "null" "Infinity" rfl rfl (by decide),
      after_other "true" "Infinity" rfl rfl (by decide), after_other "false" "Infinity" rfl rfl (by decide),
      after_other "NaN" "Infinity" rfl rfl (by decide), after_word]
  · rw [scanLiteral, after_other "null" "-Infinity" rfl rfl (by decide),
      after_other "true" "-Infinity" rfl rfl (by decide), after_other "false" "-Infinity" rfl rfl (by decide),
      after_other "NaN" "-Infinity" rfl rfl (by decide),
      after_other "Infinity" "-Infinity" rfl rfl (by decide), after_word]

theorem scans_word (levels : Nat) {word : String} {c : CodePoint} {s : Text} {x : Value}
    (hscan : ∀ rest, scanLiteral floats (text word ++ rest) = .ok (x, rest)) (hword : text word = c :: s)
    (hc : whitespace c = false ∧ c.val ≠ 0x5d ∧ c.val ≠ 0x22 ∧ c.val ≠ 0x7b ∧ c.val ≠ 0x5b) :
    Scans (scanOnce floats levels) (text word) x := by
  obtain ⟨hspace, hclose, hquote, hbrace, hbracket⟩ := hc
  refine ⟨fun rest _ => ?_, c, s, hword, hspace, hclose⟩
  rw [← hscan rest, hword]
  exact scanOnce_literal floats levels hquote hbrace hbracket

theorem scans_numeral (levels : Nat) {n : Numeral} (hn : n.WellFormed) {x : Value}
    (hx : n.value floats = .ok x) : Scans (scanOnce floats levels) n.text x := by
  refine ⟨fun rest hrest => scanOnce_numeral floats levels hn hrest hx, ?_⟩
  obtain ⟨c, s, htext, hc⟩ := Numeral.text_head hn []
  rw [List.append_nil] at htext
  refine ⟨c, s, htext, ?_⟩
  rcases hc with hdigit | ⟨rfl, -⟩
  · simp only [isDigit, Bool.and_eq_true, decide_eq_true_eq] at hdigit
    simp only [whitespace, Bool.or_eq_false_iff, decide_eq_false_iff_not]
    omega
  · exact ⟨rfl, by decide⟩

theorem scans_float (levels : Nat) {x : Double} (hx : (Value.float x).Loaded floats) :
    Scans (scanOnce floats levels) x.write (.float x) := by
  match x, hx with
  | .nan, _ =>
    exact scans_word floats levels (fun rest => (scanLiteral_words floats rest).2.2.2.1) rfl (by decide)
  | .infinity false, _ =>
    exact scans_word floats levels (fun rest => (scanLiteral_words floats rest).2.2.2.2.1) rfl (by decide)
  | .infinity true, _ =>
    exact scans_word floats levels (fun rest => (scanLiteral_words floats rest).2.2.2.2.2) rfl (by decide)
  | .finite x, hx =>
    obtain ⟨t, ht⟩ := hx rfl
    obtain ⟨n, hn, hint, htext⟩ := floats.repr_numeral t x ht
    have hvalue : n.value floats = .ok (.float (.finite x)) := by
      rw [Numeral.value, hint, if_neg Bool.false_ne_true, htext, floats.parse_repr t x ht]
    have hscans := scans_numeral floats levels hn hvalue
    rwa [htext] at hscans

theorem scans_string (levels : Nat) (s : Text) :
    Scans (scanOnce floats levels) (plain.quoted s) (.str (joinSurrogates s)) := by
  refine ⟨fun rest _ => ?_, 0x22, _, rfl, rfl, by decide⟩
  have hquoted : plain.quoted s ++ rest = 0x22 :: (s.flatMap asciiEscape ++ 0x22 :: rest) := by
    simp only [Style.quoted, plain, List.cons_append, List.append_assoc, List.nil_append]
  have hquote : (0x22 : CodePoint).val = 0x22 := rfl
  rw [hquoted, scanOnce.eq_def]
  dsimp only
  rw [if_pos hquote, scanString_quoted]
  rfl

mutual

/-- What is written is read, where the levels suffice. -/
theorem scans_write : (x : Value) → ∀ levels, x.Loaded floats → x.nesting ≤ levels →
    Scans (scanOnce floats levels) (plain.write x) x.reread
  | .null, levels, _, _ =>
    scans_word floats levels (fun rest => (scanLiteral_words floats rest).1) rfl (by decide)
  | .bool true, levels, _, _ =>
    scans_word floats levels (fun rest => (scanLiteral_words floats rest).2.1) rfl (by decide)
  | .bool false, levels, _, _ =>
    scans_word floats levels (fun rest => (scanLiteral_words floats rest).2.2.1) rfl (by decide)
  | .int n, levels, hx, _ => by
    have hscans := scans_numeral floats levels (intNumeral_wellFormed n) (intNumeral_value floats hx)
    rwa [intNumeral_text] at hscans
  | .float x, levels, hx, _ => scans_float floats levels hx
  | .str s, levels, _, _ => scans_string floats levels s
  | .list items, levels, hx, hlevels => by
    rw [Value.nesting] at hlevels
    obtain ⟨levels, rfl⟩ : ∃ l, levels = l + 1 := ⟨levels - 1, by omega⟩
    have hitems := scans_writeItems items levels hx (by omega)
    refine ⟨fun rest _ => ?_, 0x5b, _, rfl, rfl, by decide⟩
    have hbracket : (0x5b : CodePoint).val = 0x5b := rfl
    rw [Style.write, List.append_assoc, List.cons_append, List.singleton_append, scanOnce.eq_def]
    dsimp only
    rw [if_neg (by decide), if_neg (by decide), if_pos hbracket]
    exact scanArray_written hitems rest
  | .dict entries, levels, hx, hlevels => by
    rw [Value.nesting] at hlevels
    obtain ⟨levels, rfl⟩ : ∃ l, levels = l + 1 := ⟨levels - 1, by omega⟩
    have hentries := scans_writeEntries entries levels hx.2 (by omega)
    refine ⟨fun rest _ => ?_, 0x7b, _, rfl, rfl, by decide⟩
    have hbrace : (0x7b : CodePoint).val = 0x7b := rfl
    rw [Style.write, List.append_assoc, List.cons_append, List.singleton_append, scanOnce.eq_def]
    dsimp only
    rw [if_neg (by decide), if_pos hbrace]
    exact scanObject_written hentries rest

theorem scans_writeItems : (xs : List Value) → ∀ levels, LoadedItems floats xs → nestingItems xs ≤ levels →
    List.Forall₂ (Scans (scanOnce floats levels)) (plain.writeItems xs) (rereadItems xs)
  | [], _, _, _ => .nil
  | x :: xs, levels, hxs, hlevels => by
    rw [nestingItems] at hlevels
    exact .cons (scans_write x levels hxs.1 (by omega)) (scans_writeItems xs levels hxs.2 (by omega))

theorem scans_writeEntries : (xs : List (Text × Value)) → ∀ levels, LoadedEntries floats xs →
    nestingEntries xs ≤ levels →
    List.Forall₂ (ScansMember (scanOnce floats levels)) (plain.writeEntries xs) (rereadEntries xs)
  | [], _, _, _ => .nil
  | (key, x) :: xs, levels, hxs, hlevels => by
    rw [nestingEntries] at hlevels
    exact .cons ⟨rfl, scans_write x levels hxs.1 (by omega)⟩ (scans_writeEntries xs levels hxs.2 (by omega))

end

/-- `json.loads(json.dumps(x))`. -/
theorem loadsText_write {x : Value} {levels : Nat} (hx : x.Loaded floats) (hlevels : x.nesting ≤ levels) :
    loadsText floats levels (plain.write x) = .ok x.reread := by
  have hscans := scans_write floats x levels hx hlevels
  obtain ⟨c, s, htext, hc, -⟩ := hscans.head
  have hscan := hscans.scan [] fun c hc => by cases hc
  have hskip : skip (plain.write x) = plain.write x := by
    rw [htext]
    exact skip_head hc
  rw [List.append_nil] at hscan
  rw [loadsText, hskip, hscan]
  rfl

/-! ## Where the value read is the one written -/

/-- A key is new and comes last, or the keys stay. -/
theorem setItem_cases (key : Text) (x : Value) (entries : List (Text × Value)) :
    (key ∉ entries.map Prod.fst ∧ setItem key x entries = entries ++ [(key, x)]) ∨
      (setItem key x entries).map Prod.fst = entries.map Prod.fst := by
  induction entries with
  | nil => exact .inl ⟨List.not_mem_nil, rfl⟩
  | cons entry entries ih =>
    obtain ⟨k, y⟩ := entry
    rw [setItem]
    by_cases hk : k = key
    · rw [if_pos hk]
      exact .inr rfl
    · rw [if_neg hk]
      rcases ih with ⟨hnew, heq⟩ | hkeys
      · refine .inl ⟨?_, by rw [heq, List.cons_append]⟩
        rw [List.map_cons, List.mem_cons, not_or]
        exact ⟨fun h => hk h.symm, hnew⟩
      · exact .inr (by rw [List.map_cons, List.map_cons, hkeys])

theorem length_setItem_le (key : Text) (x : Value) (entries : List (Text × Value)) :
    (setItem key x entries).length ≤ entries.length + 1 := by
  rcases setItem_cases key x entries with ⟨-, heq⟩ | hkeys
  · rw [heq, List.length_append, List.length_singleton]
  · rw [← List.length_map Prod.fst, hkeys, List.length_map]
    omega

theorem setItem_ne_nil (key : Text) (x : Value) (entries : List (Text × Value)) :
    setItem key x entries ≠ [] := by
  cases entries with
  | nil => exact List.cons_ne_nil _ _
  | cons entry entries =>
    rw [setItem]
    split <;> exact List.cons_ne_nil _ _

theorem setItem_new {key : Text} {x : Value} {entries : List (Text × Value)}
    (hnew : key ∉ entries.map Prod.fst) : setItem key x entries = entries ++ [(key, x)] := by
  induction entries with
  | nil => rfl
  | cons entry entries ih =>
    rw [List.map_cons, List.mem_cons, not_or] at hnew
    rw [setItem, if_neg fun h => hnew.1 h.symm, ih hnew.2, List.cons_append]

theorem setItems_new {read entries : List (Text × Value)}
    (hnodup : ((entries ++ read).map Prod.fst).Nodup) : setItems entries read = entries ++ read := by
  induction read generalizing entries with
  | nil => exact (List.append_nil entries).symm
  | cons r read ih =>
    have hmiddle : entries ++ r :: read = entries ++ [(r.1, r.2)] ++ read := by
      rw [List.append_assoc, List.singleton_append]
    have hnew : r.1 ∉ entries.map Prod.fst := by
      rw [List.map_append, List.map_cons] at hnodup
      exact fun h => List.disjoint_of_nodup_append hnodup h List.mem_cons_self
    rw [hmiddle] at hnodup ⊢
    rw [← ih hnodup, ← setItem_new hnew]
    rfl

theorem setItems_cases (read entries : List (Text × Value)) :
    setItems entries read = entries ++ read ∨
      (setItems entries read).length < entries.length + read.length := by
  induction read generalizing entries with
  | nil => exact .inl (List.append_nil entries).symm
  | cons r read ih =>
    have hstep : setItems entries (r :: read) = setItems (setItem r.1 r.2 entries) read := rfl
    rw [hstep, List.length_cons]
    rcases setItem_cases r.1 r.2 entries with ⟨-, heq⟩ | hkeys
    · rw [heq]
      rcases ih (entries ++ [(r.1, r.2)]) with h | h
      · exact .inl (by rw [h, List.append_assoc, List.singleton_append])
      · rw [List.length_append, List.length_singleton] at h
        exact .inr (by omega)
    · have hlength : (setItem r.1 r.2 entries).length = entries.length := by
        rw [← List.length_map Prod.fst, hkeys, List.length_map]
      refine .inr ?_
      rcases ih (setItem r.1 r.2 entries) with h | h
      · rw [h, List.length_append]
        omega
      · omega

theorem length_rereadEntries (xs : List (Text × Value)) : (rereadEntries xs).length = xs.length := by
  induction xs with
  | nil => rfl
  | cons entry xs ih => rw [rereadEntries, List.length_cons, ih, List.length_cons]

theorem rereadEntries_append (xs ys : List (Text × Value)) :
    rereadEntries (xs ++ ys) = rereadEntries xs ++ rereadEntries ys := by
  induction xs with
  | nil => rfl
  | cons entry xs ih => rw [List.cons_append, rereadEntries, ih, rereadEntries, List.cons_append]

/-- Reading a dictionary back keeps it where it keeps its entries. -/
theorem setItems_reread {entries : List (Text × Value)} (hnodup : (entries.map Prod.fst).Nodup) :
    setItems [] (rereadEntries entries) = entries ↔ rereadEntries entries = entries := by
  constructor
  · intro h
    rcases setItems_cases (rereadEntries entries) [] with heq | hlt
    · rw [heq, List.nil_append] at h
      exact h
    · rw [h, length_rereadEntries, List.length_nil] at hlt
      omega
  · intro h
    rw [h]
    exact setItems_new hnodup

mutual

theorem reread_eq_iff : (x : Value) → x.Loaded floats → (x.reread = x ↔ x.anyText paired = false)
  | .null, _ | .bool _, _ | .int _, _ | .float _, _ => iff_of_true rfl rfl
  | .str s, _ => by
    rw [Value.reread, Value.anyText, Value.str.injEq]
    exact joinSurrogates_eq_iff s
  | .list items, hx => by
    rw [Value.reread, Value.anyText, Value.list.injEq]
    exact rereadItems_eq_iff items hx
  | .dict entries, hx => by
    rw [Value.reread, Value.anyText, Value.dict.injEq, setItems_reread hx.1]
    exact rereadEntries_eq_iff entries hx.2

theorem rereadItems_eq_iff : (xs : List Value) → LoadedItems floats xs →
    (rereadItems xs = xs ↔ anyTextItems paired xs = false)
  | [], _ => iff_of_true rfl rfl
  | x :: xs, hxs => by
    rw [rereadItems, anyTextItems, List.cons.injEq, Bool.or_eq_false_iff, reread_eq_iff x hxs.1,
      rereadItems_eq_iff xs hxs.2]

theorem rereadEntries_eq_iff : (xs : List (Text × Value)) → LoadedEntries floats xs →
    (rereadEntries xs = xs ↔ anyTextEntries paired xs = false)
  | [], _ => iff_of_true rfl rfl
  | (key, x) :: xs, hxs => by
    rw [rereadEntries, anyTextEntries, List.cons.injEq, Prod.mk.injEq, Bool.or_eq_false_iff,
      Bool.or_eq_false_iff, reread_eq_iff x hxs.1, rereadEntries_eq_iff xs hxs.2, joinSurrogates_eq_iff]

end

end PyJson
