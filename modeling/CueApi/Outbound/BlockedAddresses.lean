import CueApi.Outbound.Addresses

/-! Which addresses the checks of `app/utils/url_validation.py` stop, of those that lead into a
network: the internal ones, and the IPv6 addresses that embed an internal IPv4 address. -/

namespace CueApi.Addresses

variable {ip : Ip} {n n' : Network}

/-! ## Networks -/

def Network.bits : Network → Nat
  | .v4 _ bits => bits
  | .v6 _ bits => bits

def Network.base : Network → Ip
  | .v4 base _ => .v4 base
  | .v6 base _ => .v6 base

theorem shift_further {w : Nat} {x y : BitVec w} {k m : Nat} (h : x >>> k = y >>> k) (hk : k ≤ m) :
    x >>> m = y >>> m := by
  obtain ⟨j, rfl⟩ := Nat.exists_eq_add_of_le hk
  rw [BitVec.shiftRight_add, BitVec.shiftRight_add, h]

/-- What a wider network says of an address it says of the whole of a narrower one around it. -/
theorem Network.contains_base (h : n.contains ip = true) (hbits : n'.bits ≤ n.bits) :
    n'.contains ip = n'.contains n.base := by
  cases n with
  | v4 base bits =>
    cases ip with
    | v4 a =>
      cases n' with
      | v4 base' bits' =>
        have hk : 32 - bits ≤ 32 - bits' := Nat.sub_le_sub_left hbits 32
        simp only [Network.contains, Network.base, shift_further (of_decide_eq_true h) hk]
      | v6 base' bits' => rfl
    | v6 a => cases h
  | v6 base bits =>
    cases ip with
    | v4 a => cases h
    | v6 a =>
      cases n' with
      | v4 base' bits' => rfl
      | v6 base' bits' =>
        have hk : 128 - bits ≤ 128 - bits' := Nat.sub_le_sub_left hbits 128
        simp only [Network.contains, Network.base, shift_further (of_decide_eq_true h) hk]

/-- Two networks that do not meet. -/
theorem Network.apart (h : n.contains ip = true) (hbits : n'.bits ≤ n.bits)
    (hout : n'.contains n.base = false) : n'.contains ip = false :=
  (Network.contains_base h hbits).trans hout

/-! ## Kinds of addresses -/

def Ip.inAny (networks : List Network) (ip : Ip) : Bool := networks.any fun n => n.contains ip

def Ip.loopback : Ip → Bool := Ip.inAny [.v4 (dotted 127 0 0 0) 8, .v6 1 128]

def Ip.unspecified : Ip → Bool := Ip.inAny [.v4 0 32, .v6 0 128]

def Ip.privateUse : Ip → Bool := Ip.inAny [
  .v4 (dotted 10 0 0 0) 8, .v4 (dotted 172 16 0 0) 12, .v4 (dotted 192 168 0 0) 16,
  .v6 (0xfc00 <<< 112) 7]

def Ip.linkLocal : Ip → Bool :=
  Ip.inAny [.v4 (dotted 169 254 0 0) 16, .v6 (0xfe80 <<< 112) 10]

/-- CGN. -/
def Ip.sharedSpace : Ip → Bool := Ip.inAny [.v4 (dotted 100 64 0 0) 10]

def Ip.internal (ip : Ip) : Bool :=
  ip.loopback || ip.unspecified || ip.privateUse || ip.linkLocal || ip.sharedSpace

/-- The ways to write an IPv4 address in an IPv6 address. -/
inductive Embedding
  | mapped | compatible | sixToFour | nat64
  deriving DecidableEq, Repr

def Embedding.network : Embedding → Network
  | .mapped => .v6 (0xffff <<< 32) 96
  | .compatible => .v6 0 96
  | .sixToFour => .v6 (0x2002 <<< 112) 16
  | .nat64 => .v6 (0x64ff9b <<< 96) 96

def Embedding.extract (ip : BitVec 128) : Embedding → BitVec 32
  | .sixToFour => (ip >>> 80).truncate 32
  | _ => ip.truncate 32

def Ip.embeds (e : Embedding) : Ip → Option Ip
  | .v4 _ => none
  | .v6 ip => if e.network.contains (.v6 ip) then some (.v4 (e.extract ip)) else none

def Ip.embedsInternal (ip : Ip) (e : Embedding) : Bool := (ip.embeds e).any Ip.internal

/-- The addresses that the checks are to stop. -/
def Ip.sensitive (ip : Ip) : Bool :=
  ip.internal || [.mapped, .compatible, .sixToFour, .nat64].any ip.embedsInternal

/-- Those of them that `BLOCKED_RANGES` leaves out. -/
def Ip.missed (ip : Ip) : Bool :=
  ip = .v6 0 || [.compatible, .sixToFour, .nat64].any ip.embedsInternal

/-! ## In production -/

@[simp] theorem contains_v4_v6 {base : BitVec 32} {bits : Nat} {a : BitVec 128} :
    (Network.v4 base bits).contains (.v6 a) = false := rfl

@[simp] theorem contains_v6_v4 {base : BitVec 128} {bits : Nat} {a : BitVec 32} :
    (Network.v6 base bits).contains (.v4 a) = false := rfl

/-- Every internal network but `::/128` is inside a blocked range. -/
theorem isBlockedIp_internal_v4 {a : BitVec 32} (h : (Ip.v4 a).internal = true) :
    isBlockedIp (.v4 a) = true := by
  have hzero (h : (Network.v4 0 32).contains (.v4 a) = true) :
      (Network.v4 (dotted 0 0 0 0) 8).contains (.v4 a) = true :=
    (Network.contains_base h (by decide)).trans (by decide)
  simp only [Ip.internal, Ip.loopback, Ip.unspecified, Ip.privateUse, Ip.linkLocal, Ip.sharedSpace,
    Ip.inAny, List.any_cons, List.any_nil, contains_v6_v4, Bool.or_false, Bool.or_eq_true] at h
  simp only [isBlockedIp, blockedRanges, Ip.unmapped, List.any_cons, List.any_nil, contains_v6_v4,
    Bool.or_false, Bool.or_eq_true]
  rcases h with (((h | h) | h | h | h) | h) | h
  · exact .inl h
  · simp only [hzero h, true_or, or_true]
  all_goals simp only [h, true_or, or_true]

/-- The blocked ranges of IPv6 but for that of the mapped addresses. -/
def blockedV6 (a : BitVec 128) : Bool :=
  Ip.inAny [.v6 1 128, .v6 (0xfc00 <<< 112) 7, .v6 (0xfe80 <<< 112) 10] (.v6 a)

theorem isBlockedIp_v6 {a : BitVec 128} (h : Embedding.mapped.network.contains (.v6 a) = false) :
    isBlockedIp (.v6 a) = blockedV6 a := by
  have hne : ¬ a >>> 32 = 0xffff := of_decide_eq_false h
  have hm : (Network.v6 (0xffff <<< 32) 96).contains (.v6 a) = false := h
  simp only [isBlockedIp, Ip.unmapped, if_neg hne, blockedRanges, List.any_cons, List.any_nil,
    contains_v4_v6, hm, blockedV6, Ip.inAny, Bool.false_or, Bool.or_false]

theorem isBlockedIp_mapped {a : BitVec 128} (h : Embedding.mapped.network.contains (.v6 a) = true) :
    isBlockedIp (.v6 a) = isBlockedIp (.v4 (a.truncate 32)) := by
  have heq : a >>> 32 = 0xffff := of_decide_eq_true h
  unfold isBlockedIp Ip.unmapped
  simp only [if_pos heq]

/-- Neither an internal IPv6 network nor another embedding meets the mapped addresses. -/
theorem not_mapped {a : BitVec 128} {n : Network} (h : n.contains (.v6 a) = true)
    (hout : n.bits ≤ 96 ∧ n.contains (.v6 (0xffff <<< 32)) = false ∨
      96 ≤ n.bits ∧ Embedding.mapped.network.contains n.base = false) :
    Embedding.mapped.network.contains (.v6 a) = false := by
  rcases hout with ⟨hbits, hout⟩ | ⟨hbits, hout⟩
  · by_contra hm
    rw [Bool.not_eq_false] at hm
    rw [Network.apart hm hbits hout] at h
    cases h
  · exact Network.apart h hbits hout

theorem eq_of_contains_128 {a base : BitVec 128} (h : (Network.v6 base 128).contains (.v6 a) = true) :
    a = base := by
  simpa [Network.contains] using h

theorem isBlockedIp_internal (h : ip.internal = true) (hne : ip ≠ .v6 0) : isBlockedIp ip = true := by
  cases ip with
  | v4 a => exact isBlockedIp_internal_v4 h
  | v6 a =>
    simp only [Ip.internal, Ip.loopback, Ip.unspecified, Ip.privateUse, Ip.linkLocal,
      Ip.sharedSpace, Ip.inAny, List.any_cons, List.any_nil, contains_v4_v6, Bool.or_false,
      Bool.false_or, Bool.or_eq_true] at h
    have blocked {n : Network} (hn : n.contains (.v6 a) = true)
        (hin : n ∈ [Network.v6 1 128, .v6 (0xfc00 <<< 112) 7, .v6 (0xfe80 <<< 112) 10])
        (hout : n.bits ≤ 96 ∧ n.contains (.v6 (0xffff <<< 32)) = false ∨
          96 ≤ n.bits ∧ Embedding.mapped.network.contains n.base = false) :
        isBlockedIp (.v6 a) = true := by
      rw [isBlockedIp_v6 (not_mapped hn hout)]
      exact List.any_eq_true.mpr ⟨n, hin, hn⟩
    rcases h with ((h | h) | h) | h
    · exact blocked h (by decide) (by decide)
    · exact absurd (congrArg Ip.v6 (eq_of_contains_128 h)) hne
    · exact blocked h (by decide) (by decide)
    · exact blocked h (by decide) (by decide)

theorem embedsInternal_v6 {a : BitVec 128} {e : Embedding} :
    (Ip.v6 a).embedsInternal e = true ↔
      e.network.contains (.v6 a) = true ∧ (Ip.v4 (e.extract a)).internal = true := by
  unfold Ip.embedsInternal Ip.embeds
  by_cases h : e.network.contains (.v6 a) = true <;> simp [h]

theorem isBlockedIp_embedsMapped (h : ip.embedsInternal .mapped = true) : isBlockedIp ip = true := by
  cases ip with
  | v4 a => cases h
  | v6 a =>
    obtain ⟨hin, hinternal⟩ := embedsInternal_v6.mp h
    rw [isBlockedIp_mapped hin]
    exact isBlockedIp_internal_v4 hinternal

/-- The ranges know of no embedding but the mapped addresses. -/
theorem not_isBlockedIp_embeds {e : Embedding} (he : e ≠ .mapped) (h : ip.embedsInternal e = true) :
    isBlockedIp ip = false := by
  cases ip with
  | v4 a => cases h
  | v6 a =>
    obtain ⟨hin, hinternal⟩ := embedsInternal_v6.mp h
    have hloopback : (Network.v6 1 128).contains (.v6 a) = false := by
      by_contra hone
      rw [Bool.not_eq_false] at hone
      cases eq_of_contains_128 hone
      cases e with
      | mapped => exact he rfl
      | compatible => exact absurd hinternal (by decide)
      | sixToFour => exact absurd hin (by decide)
      | nat64 => exact absurd hin (by decide)
    have hmapped : Embedding.mapped.network.contains (.v6 a) = false := by
      refine not_mapped hin ?_
      cases e with
      | mapped => exact absurd rfl he
      | compatible => decide
      | sixToFour => decide
      | nat64 => decide
    have hprivate : (Network.v6 (0xfc00 <<< 112) 7).contains (.v6 a) = false :=
      Network.apart hin (by cases e <;> decide) (by cases e <;> decide)
    have hlink : (Network.v6 (0xfe80 <<< 112) 10).contains (.v6 a) = false :=
      Network.apart hin (by cases e <;> decide) (by cases e <;> decide)
    rw [isBlockedIp_v6 hmapped]
    simp only [blockedV6, Ip.inAny, List.any_cons, List.any_nil, hloopback, hprivate, hlink,
      Bool.or_false]

theorem missed_iff : ip.missed = true ↔
    ip = .v6 0 ∨ ∃ e, e ≠ Embedding.mapped ∧ ip.embedsInternal e = true := by
  simp only [Ip.missed, List.any_cons, List.any_nil, Bool.or_false, Bool.or_eq_true,
    decide_eq_true_eq]
  refine or_congr_right ⟨?_, ?_⟩
  · rintro (h | h | h)
    · exact ⟨_, by decide, h⟩
    · exact ⟨_, by decide, h⟩
    · exact ⟨_, by decide, h⟩
  · rintro ⟨e, he, h⟩
    cases e with
    | mapped => exact absurd rfl he
    | compatible => exact .inl h
    | sixToFour => exact .inr (.inl h)
    | nat64 => exact .inr (.inr h)

theorem sensitive_iff : ip.sensitive = true ↔
    ip.internal = true ∨ ∃ e, ip.embedsInternal e = true := by
  simp only [Ip.sensitive, List.any_cons, List.any_nil, Bool.or_false, Bool.or_eq_true]
  refine or_congr_right ⟨?_, ?_⟩
  · rintro (h | h | h | h) <;> exact ⟨_, h⟩
  · rintro ⟨e, h⟩
    cases e with
    | mapped => exact .inl h
    | compatible => exact .inr (.inl h)
    | sixToFour => exact .inr (.inr (.inl h))
    | nat64 => exact .inr (.inr (.inr h))

theorem sensitive_of_missed (h : ip.missed = true) : ip.sensitive = true := by
  rcases missed_iff.mp h with rfl | ⟨e, -, he⟩
  · decide
  · exact sensitive_iff.mpr (.inr ⟨e, he⟩)

/-- A sensitive address is blocked unless it is missed. -/
theorem isBlockedIp_sensitive (h : ip.sensitive = true) : isBlockedIp ip = !ip.missed := by
  by_cases hm : ip.missed = true
  · rw [hm]
    rcases missed_iff.mp hm with rfl | ⟨e, he, hin⟩
    · decide
    · exact not_isBlockedIp_embeds he hin
  · have hnot := fun h => hm (missed_iff.mpr h)
    rw [Bool.not_eq_true] at hm
    rw [hm]
    rcases sensitive_iff.mp h with h | ⟨e, h⟩
    · exact isBlockedIp_internal h fun heq => hnot (.inl heq)
    · by_cases he : e = .mapped
      · exact isBlockedIp_embedsMapped (he ▸ h)
      · exact absurd (.inr ⟨e, he, h⟩) hnot

/-! ## The three functions -/

/-- `is_blocked_ip` is true of the address, and a callback URL that resolves to it is not taken. -/
def Stopped (ip : Ip) : Prop :=
  isBlockedIp ip = true ∧ ∀ urlparse env url ips, ip ∈ ips →
    validateCallbackUrl urlparse env url (some ips) ≠ .ok ()

/-- In development no delivery is let through to the address. -/
def StoppedInDevelopment (ip : Ip) : Prop :=
  ∀ urlparse url ips, ip ∈ ips →
    validateUrlAtDelivery urlparse "development" url (some ips) ≠ .ok ()

theorem stopped_iff : Stopped ip ↔ isBlockedIp ip = true := by
  refine ⟨fun h => h.1, fun h => ⟨h, fun urlparse env url ips hmem hok => ?_⟩⟩
  unfold validateCallbackUrl at hok
  split at hok
  · cases hok
  · split_ifs at hok
    split at hok
    · cases hok
    · split_ifs at hok
      dsimp only at hok
      rw [if_pos (List.any_eq_true.mpr ⟨ip, hmem, h⟩)] at hok
      cases hok

/-- In development the check knows the link-local addresses only. -/
theorem stoppedInDevelopment_iff : StoppedInDevelopment ip ↔ ip.linkLocal = true := by
  have hblocked (ip : Ip) : ((Network.v4 (dotted 169 254 0 0) 16).contains ip ||
      (Network.v6 (0xfe80 <<< 112) 10).contains ip) = ip.linkLocal := by
    simp [Ip.linkLocal, Ip.inAny]
  have hdev : "development" ∈ ["development", "test"] := by decide
  constructor
  · intro h
    by_contra hno
    refine h parseHook "https://hook.example.com/in" [ip] List.mem_cons_self ?_
    have hparse : parseHook "https://hook.example.com/in" =
        some { scheme := "https", hostname := some "hook.example.com" } := rfl
    have hhost : (some "hook.example.com").filter (fun x => decide (x ≠ "")) =
        some "hook.example.com" := by decide
    simp only [validateUrlAtDelivery, hparse, hhost, hdev, hblocked, if_true, not_true_eq_false,
      false_and, if_false, List.any_cons, List.any_nil, Bool.or_false, hno]
  · intro h urlparse url ips hmem hok
    have hany : (ips.any fun ip => ip.linkLocal) = true := List.any_eq_true.mpr ⟨ip, hmem, h⟩
    simp only [validateUrlAtDelivery, hdev, hblocked, if_true, not_true_eq_false, false_and,
      if_false, hany] at hok
    split at hok
    · cases hok
    · split at hok <;> cases hok

/-- A sensitive address is stopped unless it is missed; in development, one that is not loopback only
if it is link-local. -/
theorem blocked_classification_iff (ip : Ip) :
    ((ip.sensitive = true → Stopped ip) ↔ ip.missed = false) ∧
    ((ip.sensitive = true → ip.loopback = false → StoppedInDevelopment ip) ↔
      ip.sensitive = false ∨ ip.loopback = true ∨ ip.linkLocal = true) := by
  rw [stopped_iff, stoppedInDevelopment_iff]
  constructor
  · constructor
    · intro h
      by_contra hm
      rw [Bool.not_eq_false] at hm
      have hs := sensitive_of_missed hm
      have hb := h hs
      rw [isBlockedIp_sensitive hs, hm] at hb
      cases hb
    · intro hm hs
      rw [isBlockedIp_sensitive hs, hm]
      rfl
  · constructor
    · intro h
      by_cases hs : ip.sensitive = true
      · by_cases hl : ip.loopback = true
        · exact .inr (.inl hl)
        · exact .inr (.inr (h hs (Bool.not_eq_true _ ▸ hl)))
      · exact .inl (Bool.not_eq_true _ ▸ hs)
    · rintro (h | h | h) hs hl
      · rw [h] at hs
        cases hs
      · rw [h] at hl
        cases hl
      · exact h

/-- The metadata service through NAT64, and a host of a private network. -/
def natMetadataService : Ip := .v6 ((0x64ff9b <<< 96) + 0xa9fea9fe)

def privateHost : Ip := .v4 (dotted 10 0 0 1)

theorem internal_address_passes :
    natMetadataService.embeds .nat64 = some metadataService ∧ ¬ Stopped natMetadataService ∧
    privateHost.privateUse = true ∧ ¬ StoppedInDevelopment privateHost ∧
    ¬ ∀ ip : Ip, ip.sensitive = true →
      Stopped ip ∧ (ip.loopback = false → StoppedInDevelopment ip) := by
  have hnat : ¬ Stopped natMetadataService := by
    rw [stopped_iff]
    decide
  have hhost : ¬ StoppedInDevelopment privateHost := by
    rw [stoppedInDevelopment_iff]
    decide
  exact ⟨by decide, hnat, by decide, hhost, fun h => hnat (h natMetadataService (by decide)).1⟩

end CueApi.Addresses
