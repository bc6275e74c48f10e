import CueApi.Library.PyJsonReread

/-! What `json.loads` can return, and what it makes of the octets that `json.dumps` writes. -/

namespace PyJson

variable (floats : Floats)

/-! ## Values that are read -/

theorem loadedItems_append {xs ys : List Value} (hxs : LoadedItems floats xs) (hys : LoadedItems floats ys) :
    LoadedItems floats (xs ++ ys) := by
  induction xs with
  | nil => exact hys
  | cons x xs ih => exact ⟨hxs.1, ih hxs.2⟩

theorem loadedEntries_setItem {key : Text} {x : Value} {entries : List (Text × Value)}
    (hentries : LoadedEntries floats entries) (hx : x.Loaded floats) :
    LoadedEntries floats (setItem key x entries) := by
  induction entries with
  | nil => exact ⟨hx, trivial⟩
  | cons entry entries ih =>
    obtain ⟨k, y⟩ := entry
    rw [setItem]
    split
    · exact ⟨hx, hentries.2⟩
    · exact ⟨hentries.1, ih hentries.2⟩

theorem nodup_setItem (key : Text) (x : Value) {entries : List (Text × Value)}
    (hnodup : (entries.map Prod.fst).Nodup) : ((setItem key x entries).map Prod.fst).Nodup := by
  rcases setItem_cases key x entries with ⟨hnew, heq⟩ | hkeys
  · rw [heq, List.map_append, List.map_singleton]
    exact List.nodup_append.mpr ⟨hnodup, List.nodup_singleton _, by
      rintro k hk _ hkey rfl
      rw [List.mem_singleton.mp hkey] at hk
      exact hnew hk⟩
  · rw [hkeys]
    exact hnodup

/-- A dictionary whose keys are distinct and whose values are loaded takes another item. -/
theorem loaded_setItem (key : Text) {x : Value} {entries : List (Text × Value)}
    (hentries : (Value.dict entries).Loaded floats) (hx : x.Loaded floats) :
    (Value.dict (setItem key x entries)).Loaded floats :=
  ⟨nodup_setItem key x hentries.1, loadedEntries_setItem floats hentries.2 hx⟩

theorem readDecimal_lt {ds : Text} (hds : ∀ c ∈ ds, isDigit c = true) : readDecimal ds < 10 ^ ds.length := by
  have hfold : ∀ (ds : Text) (acc : Nat), (∀ c ∈ ds, isDigit c = true) →
      ds.foldl (fun acc c => 10 * acc + (c.val - 0x30)) acc < (acc + 1) * 10 ^ ds.length := by
    intro ds
    induction ds with
    | nil =>
      intro acc _
      rw [List.foldl_nil, List.length_nil, Nat.pow_zero]
      omega
    | cons c ds ih =>
      intro acc hds
      have hc := hds c List.mem_cons_self
      simp only [isDigit, Bool.and_eq_true, decide_eq_true_eq] at hc
      have hstep : 10 * acc + (c.val - 0x30) + 1 ≤ (acc + 1) * 10 := by omega
      calc ds.foldl (fun acc c => 10 * acc + (c.val - 0x30)) (10 * acc + (c.val - 0x30))
          < (10 * acc + (c.val - 0x30) + 1) * 10 ^ ds.length :=
            ih _ fun d hd => hds d (List.mem_cons_of_mem _ hd)
        _ ≤ (acc + 1) * 10 * 10 ^ ds.length := Nat.mul_le_mul_right _ hstep
        _ = (acc + 1) * 10 ^ (c :: ds).length := by
          rw [List.length_cons, Nat.pow_succ, Nat.mul_assoc, Nat.mul_comm 10]
  have hlt := hfold ds 0 hds
  rwa [Nat.zero_add, Nat.one_mul] at hlt

theorem lexInt_isDigit {s ds rest : Text} (h : lexInt s = some (ds, rest)) : ∀ c ∈ ds, isDigit c = true := by
  cases s with
  | nil => cases h
  | cons c s =>
    rw [lexInt] at h
    split_ifs at h with hzero hdigit
    · cases h
      intro d hd
      rw [List.mem_singleton.mp hd]
      simp only [isDigit, hzero]
      decide
    · cases h
      intro d hd
      rcases List.mem_cons.mp hd with rfl | hmem
      · exact hdigit
      · exact List.all_eq_true.mp List.all_takeWhile d hmem

theorem lexNumeral_isDigit {s rest : Text} {n : Numeral} (h : lexNumeral s = some (n, rest)) :
    ∀ c ∈ n.digits, isDigit c = true := by
  unfold lexNumeral at h
  obtain ⟨⟨ds, s'⟩, hint, heq⟩ := Option.map_eq_some_iff.mp h
  cases heq
  exact lexInt_isDigit hint

theorem value_loaded {n : Numeral} {x : Value} (hds : ∀ c ∈ n.digits, isDigit c = true)
    (h : n.value floats = .ok x) : x.Loaded floats := by
  unfold Numeral.value at h
  by_cases hint : n.isInt = true
  · rw [if_pos hint] at h
    by_cases hlong : maxStrDigits < n.digits.length
    · rw [if_pos hlong] at h
      cases h
    · rw [if_neg hlong] at h
      cases h
      have hlt := readDecimal_lt hds
      have hpow : 10 ^ n.digits.length ≤ 10 ^ maxStrDigits := Nat.pow_le_pow_right (by decide) (by omega)
      have habs : (if n.minus = true then -(readDecimal n.digits : Int) else readDecimal n.digits).natAbs =
          readDecimal n.digits := by
        split <;> omega
      rw [Value.Loaded, habs]
      omega
  · rw [if_neg hint] at h
    cases h
    exact fun _ => ⟨n.text, rfl⟩

theorem scanNumeral_loaded {s rest : Text} {x : Value} (h : scanNumeral floats s = .ok (x, rest)) :
    x.Loaded floats := by
  unfold scanNumeral at h
  split at h
  · cases h
  · rename_i n s' hlex
    cases hvalue : n.value floats with
    | error e => rw [hvalue] at h; cases h
    | ok y =>
      rw [hvalue] at h
      cases h
      exact value_loaded floats (lexNumeral_isDigit hlex) hvalue

theorem scanLiteral_loaded {s rest : Text} {x : Value} (h : scanLiteral floats s = .ok (x, rest)) :
    x.Loaded floats := by
  unfold scanLiteral at h
  split at h
  · cases h; trivial
  split at h
  · cases h; trivial
  split at h
  · cases h; trivial
  split at h
  · cases h
    exact fun hfinite => by cases hfinite
  split at h
  · cases h
    exact fun hfinite => by cases hfinite
  split at h
  · cases h
    exact fun hfinite => by cases hfinite
  · exact scanNumeral_loaded floats h

section Loops

variable {scan : Text → Except LoadError (Value × Text)}
  (hscan : ∀ s x rest, scan s = .ok (x, rest) → x.Loaded floats)
include hscan

theorem scanElements_loaded (n : Nat) (acc : List Value) (s : Text) {x : Value} {rest : Text}
    (hacc : LoadedItems floats acc) (h : scanElements scan n acc s = .ok (x, rest)) : x.Loaded floats := by
  induction n generalizing acc s with
  | zero => cases h
  | succ n ih =>
    rw [scanElements] at h
    cases hone : scan s with
    | error e => rw [hone] at h; cases h
    | ok read =>
      obtain ⟨y, s'⟩ := read
      have hone' : LoadedItems floats [y] := ⟨hscan _ _ _ hone, trivial⟩
      have hitems := loadedItems_append floats hacc hone'
      rw [hone] at h
      simp only [bind, Except.bind] at h
      split at h
      · cases h
      split_ifs at h
      · cases h
        exact hitems
      · exact ih _ _ hitems h
      · cases h

theorem scanArray_loaded {s rest : Text} {x : Value} (h : scanArray scan s = .ok (x, rest)) : x.Loaded floats := by
  unfold scanArray at h
  split at h
  · cases h
  split_ifs at h
  · cases h
    trivial
  · have hnil : LoadedItems floats [] := trivial
    exact scanElements_loaded floats hscan _ _ _ hnil h

theorem scanMembers_loaded (n : Nat) (acc : List (Text × Value)) (s : Text) {x : Value} {rest : Text}
    (hacc : (Value.dict acc).Loaded floats) (h : scanMembers scan n acc s = .ok (x, rest)) :
    x.Loaded floats := by
  induction n generalizing acc s with
  | zero => cases h
  | succ n ih =>
    cases s with
    | nil => cases h
    | cons q s =>
      rw [scanMembers] at h
      split_ifs at h
      · cases h
      cases hkey : scanString s with
      | error e => rw [hkey] at h; cases h
      | ok read =>
        obtain ⟨key, s₁⟩ := read
        rw [hkey] at h
        simp only [bind, Except.bind] at h
        split at h
        · cases h
        rename_i c s₂ _
        split_ifs at h
        · cases h
        cases hone : scan (skip s₂) with
        | error e => rw [hone] at h; cases h
        | ok read =>
          obtain ⟨y, s₃⟩ := read
          have hitem := loaded_setItem floats key hacc (hscan _ _ _ hone)
          rw [hone] at h
          dsimp only at h
          split at h
          · cases h
          split_ifs at h
          · cases h
            exact hitem
          · exact ih _ _ hitem h
          · cases h

theorem scanObject_loaded {s rest : Text} {x : Value} (h : scanObject scan s = .ok (x, rest)) :
    x.Loaded floats := by
  have hempty : (Value.dict []).Loaded floats := ⟨List.nodup_nil, trivial⟩
  unfold scanObject at h
  split at h
  · cases h
  split_ifs at h
  · cases h
    exact hempty
  · exact scanMembers_loaded floats hscan _ _ _ hempty h

end Loops

theorem scanOnce_loaded : (levels : Nat) → ∀ (s : Text) (x : Value) (rest : Text),
    scanOnce floats levels s = .ok (x, rest) → x.Loaded floats
  | levels, [], x, rest, h => by
    rw [scanOnce.eq_def] at h
    cases h
  | levels, c :: s, x, rest, h => by
    rw [scanOnce.eq_def] at h
    dsimp only at h
    split_ifs at h
    · cases hstring : scanString s with
      | error e => rw [hstring] at h; cases h
      | ok read =>
        rw [hstring] at h
        cases h
        trivial
    · match levels, h with
      | 0, h => cases h
      | levels + 1, h => exact scanObject_loaded floats (scanOnce_loaded levels) h
    · match levels, h with
      | 0, h => cases h
      | levels + 1, h => exact scanArray_loaded floats (scanOnce_loaded levels) h
    · exact scanLiteral_loaded floats h

theorem loads_loaded {levels : Nat} {bs : Octets} {x : Value} (h : loads floats levels bs = .ok x) :
    x.Loaded floats := by
  unfold loads at h
  split at h
  · cases h
  · rename_i s _
    unfold loadsText at h
    cases hscan : scanOnce floats levels (skip s) with
    | error e => rw [hscan] at h; cases h
    | ok read =>
      obtain ⟨y, rest⟩ := read
      rw [hscan] at h
      simp only [bind, Except.bind, pure, Except.pure] at h
      split_ifs at h
      · cases h
        exact scanOnce_loaded floats levels _ _ _ hscan
      · cases h

/-! ## Levels -/

/-- The second result is the first one, unless that is for want of levels. -/
def Agrees {α : Type} (a b : Except LoadError α) : Prop := a = .error .recursionError ∨ b = a

section Levels

variable {scan scan' : Text → Except LoadError (Value × Text)} (hscan : ∀ s, Agrees (scan s) (scan' s))
include hscan

theorem scanElements_agrees (n : Nat) (acc : List Value) (s : Text) :
    Agrees (scanElements scan n acc s) (scanElements scan' n acc s) := by
  induction n generalizing acc s with
  | zero => exact .inr rfl
  | succ n ih =>
    rw [scanElements, scanElements]
    rcases hscan s with herror | heq
    · rw [herror]
      exact .inl rfl
    · rw [heq]
      cases scan s with
      | error e => exact .inr rfl
      | ok read =>
        obtain ⟨x, s'⟩ := read
        simp only [bind, Except.bind]
        split
        · exact .inr rfl
        split_ifs
        · exact .inr rfl
        · exact ih _ _
        · exact .inr rfl

theorem scanArray_agrees (s : Text) : Agrees (scanArray scan s) (scanArray scan' s) := by
  unfold scanArray
  split
  · exact .inr rfl
  split_ifs
  · exact .inr rfl
  · exact scanElements_agrees hscan _ _ _

theorem scanMembers_agrees (n : Nat) (acc : List (Text × Value)) (s : Text) :
    Agrees (scanMembers scan n acc s) (scanMembers scan' n acc s) := by
  induction n generalizing acc s with
  | zero => exact .inr rfl
  | succ n ih =>
    cases s with
    | nil => exact .inr rfl
    | cons q s =>
      rw [scanMembers, scanMembers]
      split_ifs
      · exact .inr rfl
      cases scanString s with
      | error e => exact .inr rfl
      | ok read =>
        obtain ⟨key, s₁⟩ := read
        simp only [bind, Except.bind]
        split
        · exact .inr rfl
        rename_i c s₂ _
        split_ifs
        · exact .inr rfl
        rcases hscan (skip s₂) with herror | heq
        · rw [herror]
          exact .inl rfl
        · rw [heq]
          cases scan (skip s₂) with
          | error e => exact .inr rfl
          | ok read =>
            obtain ⟨x, s₃⟩ := read
            dsimp only
            split
            · exact .inr rfl
            split_ifs
            · exact .inr rfl
            · exact ih _ _
            · exact .inr rfl

theorem scanObject_agrees (s : Text) : Agrees (scanObject scan s) (scanObject scan' s) := by
  unfold scanObject
  split
  · exact .inr rfl
  split_ifs
  · exact .inr rfl
  · exact scanMembers_agrees hscan _ _ _

end Levels

theorem scanOnce_agrees (levels : Nat) (s : Text) :
    Agrees (scanOnce floats levels s) (scanOnce floats (levels + 1) s) := by
  induction levels generalizing s with
  | zero =>
    cases s with
    | nil => exact .inr (by rw [scanOnce.eq_def, scanOnce.eq_def])
    | cons c s =>
      rw [scanOnce.eq_def, scanOnce.eq_def]
      dsimp only
      split_ifs
      · exact .inr rfl
      · exact .inl rfl
      · exact .inl rfl
      · exact .inr rfl
  | succ levels ih =>
    cases s with
    | nil => exact .inr (by rw [scanOnce.eq_def, scanOnce.eq_def])
    | cons c s =>
      rw [scanOnce.eq_def, scanOnce.eq_def]
      dsimp only
      split_ifs
      · exact .inr rfl
      · exact scanObject_agrees ih _
      · exact scanArray_agrees ih _
      · exact .inr rfl

theorem loads_agrees (levels : Nat) (bs : Octets) :
    Agrees (loads floats levels bs) (loads floats (levels + 1) bs) := by
  unfold loads
  split
  · exact .inr rfl
  · rename_i s _
    unfold loadsText
    rcases scanOnce_agrees floats levels (skip s) with herror | heq
    · rw [herror]
      exact .inl rfl
    · rw [heq]
      exact .inr rfl

/-- The result of `json.loads` where the levels suffice. -/
def Parses (bs : Octets) (r : Except LoadError Value) : Prop :=
  ∃ enough, ∀ levels ≥ enough, loads floats levels bs = r

theorem parses_loads {levels : Nat} {bs : Octets} {r : Except LoadError Value}
    (h : loads floats levels bs = r) (hr : r ≠ .error .recursionError) : Parses floats bs r := by
  refine ⟨levels, fun l hl => ?_⟩
  induction l, hl using Nat.le_induction with
  | base => exact h
  | succ l _ ih =>
    rcases loads_agrees floats l bs with herror | heq
    · exact absurd (ih.symm.trans herror) hr
    · rw [heq, ih]

theorem parses_unique {bs : Octets} {r r' : Except LoadError Value} (h : Parses floats bs r)
    (h' : Parses floats bs r') : r = r' := by
  obtain ⟨enough, h⟩ := h
  obtain ⟨enough', h'⟩ := h'
  rw [← h (max enough enough') (le_max_left _ _), h' (max enough enough') (le_max_right _ _)]

/-! ## `errors="replace"` -/

/-- The characters that what has begun can become are no surrogates. -/
def Begun.Clear (x : Begun) : Prop :=
  (x.need = 1 ∨ x.need = 2 ∨ x.need = 3) ∧ 0x80 ≤ x.lo ∧ x.lo ≤ x.hi ∧ x.hi ≤ 0xbf ∧
    (x.bits * 64 + (x.hi - 0x80) + 1) * 64 ^ (x.need - 1) ≤ 0x110000 ∧
    ((x.bits * 64 + (x.hi - 0x80) + 1) * 64 ^ (x.need - 1) ≤ 0xd800 ∨
      0xe000 ≤ (x.bits * 64 + (x.lo - 0x80)) * 64 ^ (x.need - 1))

theorem beginChar_clear {b : Nat} {x : Begun} (h : beginChar false b = some x) : x.Clear := by
  simp only [beginChar, Bool.false_eq_true, if_false] at h
  split_ifs at h
  all_goals
    cases h
    unfold Begun.Clear
    dsimp only
    omega

theorem Begun.Clear.surrogate_point {x : Begun} (hx : x.Clear) (hneed : x.need = 1) {b : Nat}
    (hb : x.lo ≤ b ∧ b ≤ x.hi) : surrogate (point (x.bits * 64 + b % 64)) = false := by
  obtain ⟨-, hlo, -, hhi, hplane, hclear⟩ := hx
  rw [hneed] at hplane hclear
  have hval : (point (x.bits * 64 + b % 64)).val = x.bits * 64 + b % 64 := Nat.mod_eq_of_lt (by omega)
  simp only [surrogate, hval, Bool.and_eq_false_iff, decide_eq_false_iff_not]
  omega

theorem Begun.Clear.next {x : Begun} (hx : x.Clear) (hneed : x.need ≠ 1) {b : Nat}
    (hb : x.lo ≤ b ∧ b ≤ x.hi) : Begun.Clear ⟨x.need - 1, x.bits * 64 + b % 64, 0x80, 0xbf⟩ := by
  obtain ⟨need, bits, lo, hi⟩ := x
  obtain ⟨hcases, hlo, -, hhi, hplane, hclear⟩ := hx
  unfold Begun.Clear
  dsimp only at *
  rcases hcases with rfl | rfl | rfl
  · exact absurd rfl hneed
  · omega
  · omega

theorem surrogate_utf8 (bs : Octets) : ∀ begun : Option Begun, (∀ x ∈ begun, x.Clear) →
    ∀ c, some c ∈ utf8 false begun bs → surrogate c = false := by
  induction bs with
  | nil =>
    intro begun _ c hc
    cases begun with
    | none => cases hc
    | some x => 
      rw [utf8, List.mem_singleton] at hc
      cases hc
  | cons b bs ih =>
    have hnone := ih none fun x hx => by cases hx
    have hfresh : ∀ c, some c ∈ utf8 false none (b :: bs) → surrogate c = false := by
      intro c hc
      rw [utf8] at hc
      split at hc
      · rename_i hb
        rcases List.mem_cons.mp hc with heq | hc
        · cases heq
          have hval : (point b.toNat).val = b.toNat := Nat.mod_eq_of_lt (by omega)
          exact surrogate_ascii (by omega)
        · exact hnone c hc
      · split at hc
        · rename_i x hx
          exact ih (some x) (fun y hy => by cases hy; exact beginChar_clear hx) c hc
        · rcases List.mem_cons.mp hc with heq | hc
          · cases heq
          · exact hnone c hc
    intro begun hbegun c hc
    cases begun with
    | none => exact hfresh c hc
    | some x =>
      have hx := hbegun x rfl
      rw [utf8] at hc
      by_cases hb : x.lo ≤ b.toNat ∧ b.toNat ≤ x.hi
      · rw [if_pos hb] at hc
        dsimp only at hc
        split_ifs at hc with hneed
        · rcases List.mem_cons.mp hc with heq | hc
          · cases heq
            exact hx.surrogate_point hneed hb
          · exact hnone c hc
        · exact ih _ (fun y hy => by cases hy; exact hx.next hneed hb) c hc
      · rw [if_neg hb] at hc
        rcases List.mem_cons.mp hc with heq | hc
        · cases heq
        · exact hfresh c (by rw [utf8]; exact hc)

/-- What is decoded so holds no surrogate. -/
theorem any_decodeReplace (bs : Octets) : (decodeReplace bs).any surrogate = false := by
  rw [decodeReplace, List.any_map, List.any_eq_false]
  intro c hc
  cases c with
  | none => decide
  | some c =>
    have hclear := surrogate_utf8 bs none (fun x hx => by cases hx) c hc
    rw [Function.comp_apply, Option.getD_some, hclear]
    exact Bool.false_ne_true

theorem paired_clear (s : Text) (hs : s.any surrogate = false) : paired s = false := by
  match s with
  | [] => rfl
  | [_] => rfl
  | c :: d :: s =>
    rw [List.any_cons, Bool.or_eq_false_iff] at hs
    have hhigh : highSurrogate c.val = false := by
      have hc := hs.1
      simp only [surrogate, highSurrogate, Bool.and_eq_false_iff, decide_eq_false_iff_not] at hc ⊢
      omega
    rw [paired, hhigh, Bool.false_and, Bool.false_or]
    exact paired_clear (d :: s) hs.2

/-! ## The octets of ASCII -/

/-- The octets of a text of ASCII. -/
def asciiOctets (s : Text) : Octets := s.map fun c => UInt8.ofNat c.val

theorem utf8_ascii {s : Text} (hs : ∀ c ∈ s, c.val < 0x80) (surrogates : Bool) :
    utf8 surrogates none (asciiOctets s) = s.map some := by
  induction s with
  | nil => rfl
  | cons c s ih =>
    have hc := hs c List.mem_cons_self
    have hoctet : (UInt8.ofNat c.val).toNat = c.val := by
      rw [UInt8.toNat_ofNat']
      omega
    have hrest := ih fun d hd => hs d (List.mem_cons_of_mem _ hd)
    rw [asciiOctets, List.map_cons, utf8, hoctet, if_pos hc, point_val]
    exact congrArg (some c :: ·) hrest

theorem mapM_some (s : Text) : (s.map some).mapM (fun c => c) = some s := by
  induction s with
  | nil => rfl
  | cons c s ih => 
    rw [List.map_cons, List.mapM_cons, ih]
    rfl

/-- What begins as an object with a key is detected as UTF-8. -/
theorem decodeDetected_object (bs : Octets) :
    decodeDetected (0x7b :: 0x22 :: bs) = (utf8 true none (0x7b :: 0x22 :: bs)).mapM fun c => c := by
  match bs with
  | [] => rfl
  | [_] => rfl
  | _ :: _ :: _ => rfl

/-- `json.loads(json.dumps(x).encode("utf-8"))` of a dictionary with entries. -/
theorem loads_plain {entries : List (Text × Value)} (hne : entries ≠ []) {levels : Nat}
    (hx : (Value.dict entries).Loaded floats) (hlevels : (Value.dict entries).nesting ≤ levels) :
    loads floats levels (asciiOctets (plain.write (.dict entries))) = .ok (Value.dict entries).reread := by
  have hascii := plain_ascii (.dict entries)
  obtain ⟨s, htext⟩ : ∃ s, plain.write (.dict entries) = 0x7b :: 0x22 :: s := by
    cases entries with
    | nil => exact absurd rfl hne
    | cons entry entries =>
      obtain ⟨tail, htail⟩ := intercalate_head (plain.member (entry.1, plain.write entry.2))
        ((plain.writeEntries entries).map plain.member) plain.comma [0x7d]
      exact ⟨_, congrArg (0x7b :: ·) htail⟩
  have hdetected : decodeDetected (asciiOctets (plain.write (.dict entries))) =
      some (plain.write (.dict entries)) := by
    have hutf8 := utf8_ascii hascii true
    rw [htext] at hutf8 ⊢
    exact (decodeDetected_object _).trans ((congrArg (List.mapM fun c => c) hutf8).trans (mapM_some _))
  rw [loads, hdetected]
  exact loadsText_write floats hx hlevels

end PyJson
