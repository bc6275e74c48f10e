import CueApi.Agents.DerivedSlugs
import CueApi.Library.JsonText
import CueApi.Library.Separated
import CueApi.Scheduler.Tables

/-! The roster of `app/services/agent_service.py` and its ETag, by which `get_roster_endpoint` of
`app/routers/agents.py` answers 304. -/

namespace CueApi.Roster

open Scheduler (Time seconds)
open DerivedSlugs (slugPattern hyphenated slugPattern_iff)
open Separated

/-! ## Entries -/

inductive Status
  | online | away | offline
  deriving DecidableEq, Repr

def Status.text : Status → String
  | .online => "online"
  | .away => "away"
  | .offline => "offline"

/-- The columns of `agents` that the roster reads. -/
structure Agent where
  slug : String
  displayName : String
  metadata : JsonText.Value := .object []
  webhookUrl : Option String := none
  status : Status := .online
  lastSeenAt : Option Time := none

structure Entry where
  name : String
  displayName : String
  description : Option String
  online : Bool
  lastSeenRelative : String
  preferredContact : String
  status : Status
  deriving DecidableEq, Repr

/-- `_format_relative`. -/
def formatRelative (now : Time) : Option Time → String
  | none => "never"
  | some seen =>
      let delta := now - seen
      if delta < seconds 60 then "active now"
      else if delta < seconds 3600 then toString (delta / seconds 60) ++ "m ago"
      else if delta < seconds 86400 then toString (delta / seconds 3600) ++ "h ago"
      else toString (delta / seconds 86400) ++ "d ago"

/-- `_derive_online_state`. -/
def deriveOnlineState (now : Time) (lastSeenAt : Option Time) (asserted : Status) : Bool × Status :=
  if asserted = .away ∨ asserted = .offline then (false, asserted)
  else
    match lastSeenAt with
    | none => (false, .offline)
    | some seen =>
        if now - seen ≤ seconds 300 then (true, .online)
        else if now - seen ≤ seconds 1800 then (false, .away)
        else (false, .offline)

/-- `_bucketed_seen`. -/
def bucketedSeen : Option Time → String
  | none => ""
  | some seen =>
      let epoch := seen.tdiv (seconds 1)
      toString (epoch - epoch % 300)

/-- The description in the metadata, when it is a string. -/
def description : JsonText.Value → Option String
  | .object fields =>
      match fields.lookup "description" with
      | some (.string s) => some s
      | _ => none
  | _ => none

def preferredContact (webhookUrl : Option String) : String :=
  if (webhookUrl.getD "").isEmpty then "async" else "sync"

def flag (online : Bool) : String := if online then "1" else "0"

/-- The fields of the ETag part of an agent. -/
def etagFields (now : Time) (agent : Agent) : List (List Char) :=
  let (online, derivedStatus) := deriveOnlineState now agent.lastSeenAt agent.status
  [agent.slug, agent.displayName, (description agent.metadata).getD "", flag online,
    preferredContact agent.webhookUrl, derivedStatus.text, bucketedSeen agent.lastSeenAt].map
    String.toList

/-- `_build_roster_entry`. -/
def buildRosterEntry (now : Time) (agent : Agent) : Entry × List Char :=
  let (online, derivedStatus) := deriveOnlineState now agent.lastSeenAt agent.status
  ({ name := agent.slug
     displayName := agent.displayName
     description := description agent.metadata
     online
     lastSeenRelative := formatRelative now agent.lastSeenAt
     preferredContact := preferredContact agent.webhookUrl
     status := derivedStatus }, join '|' (etagFields now agent))

/-! ## The ETag -/

section

-- the first sixteen digits of the SHA-256 of a text in UTF-8
variable (digest : List Char → List Char)

/-- `_compute_roster_etag`. -/
def computeRosterEtag (etagParts : List (List Char)) : List Char :=
  ['W', '/', JsonText.quote] ++ digest (join '\n' etagParts) ++ [JsonText.quote]

/-- `list_roster`, of the rows that the query returns. -/
def listRoster (now : Time) (rows : List Agent) : List Entry × List Char :=
  ((rows.map fun agent => (buildRosterEntry now agent).1),
    computeRosterEtag digest (rows.map fun agent => (buildRosterEntry now agent).2))

/-- `str.strip` on the characters of a header. -/
def strip (header : List Char) : List Char :=
  let space (c : Char) : Bool := c.toNat ∈ [9, 10, 11, 12, 13, 28, 29, 30, 31, 32, 0x85, 0xa0]
  (header.dropWhile space).rdropWhile space

/-- `_etag_matches`. -/
def etagMatches (ifNoneMatch : Option (List Char)) (serverEtag : List Char) : Bool :=
  match ifNoneMatch with
  | none => false
  | some header => header ≠ [] && strip header = serverEtag

/-- `get_roster_endpoint`: `none` is a 304, which comes without a body. -/
def getRoster (ifNoneMatch : Option (List Char)) (now : Time) (rows : List Agent) :
    Option (List Entry) × List Char :=
  let (entries, etag) := listRoster digest now rows
  if etagMatches ifNoneMatch etag then (none, etag) else (some entries, etag)

/-- An entry without the relative time. -/
def material (e : Entry) : String × String × Option String × Bool × String × Status :=
  (e.name, e.displayName, e.description, e.online, e.preferredContact, e.status)

def etag (now : Time) (rows : List Agent) : List Char := (listRoster digest now rows).2

def materials (now : Time) (rows : List Agent) :
    List (String × String × Option String × Bool × String × Status) :=
  rows.map fun agent => material (buildRosterEntry now agent).1

end

variable {digest : List Char → List Char} {now now' : Time} {agent agent' : Agent}
variable {rows rows' : List Agent} {c : Char}

/-! ## The text that is hashed -/

def part (now : Time) (agent : Agent) : List Char := join '|' (etagFields now agent)

def rosterText (now : Time) (rows : List Agent) : List Char := join '\n' (rows.map (part now))

theorem etag_eq (digest : List Char → List Char) (now : Time) (rows : List Agent) :
    etag digest now rows =
      ['W', '/', JsonText.quote] ++ digest (rosterText now rows) ++ [JsonText.quote] := rfl

theorem etag_eq_iff (hinj : Function.Injective digest) :
    etag digest now rows = etag digest now' rows' ↔ rosterText now rows = rosterText now' rows' := by
  rw [etag_eq, etag_eq, List.append_left_inj, List.append_right_inj, hinj.eq_iff]

/-- The slugs are ones that the schema admits. -/
def Admitted (rows : List Agent) : Prop := ∀ agent ∈ rows, slugPattern agent.slug.toList = true

def separator (c : Char) : Bool := c = '|' || c = '\n'

theorem not_separator_slug (h : slugPattern agent.slug.toList = true) (hc : c ∈ agent.slug.toList) :
    separator c = false := by
  have hslug := (slugPattern_iff.mp h).1 c hc
  rw [Bool.eq_false_iff]
  intro hsep
  simp only [separator, Bool.or_eq_true, decide_eq_true_eq] at hsep
  rcases hsep with rfl | rfl <;> exact absurd hslug (by decide)

theorem not_separator_digit (hc : c.isDigit = true) : separator c = false := by
  rw [Bool.eq_false_iff]
  intro hsep
  simp only [separator, Bool.or_eq_true, decide_eq_true_eq] at hsep
  rcases hsep with rfl | rfl <;> exact absurd hc (by decide)

theorem not_separator_repr {n : Nat} (hc : c ∈ n.repr.toList) : separator c = false := by
  rw [Nat.toList_repr] at hc
  exact not_separator_digit (Nat.isDigit_of_mem_toDigits (by decide) (by decide) hc)

theorem not_separator_toString (n : Int) (hc : c ∈ (toString n).toList) : separator c = false := by
  rw [Int.toString_eq_repr, Int.repr_eq_if] at hc
  split at hc
  · exact not_separator_repr hc
  · rw [String.toList_append, List.mem_append] at hc
    rcases hc with hc | hc
    · rw [List.mem_singleton.mp hc]
      rfl
    · exact not_separator_repr hc

/-- The part from the online flag on. -/
def tailFields (now : Time) (agent : Agent) : List (List Char) :=
  [flag (deriveOnlineState now agent.lastSeenAt agent.status).1,
    preferredContact agent.webhookUrl,
    (deriveOnlineState now agent.lastSeenAt agent.status).2.text,
    bucketedSeen agent.lastSeenAt].map String.toList

theorem etagFields_eq (now : Time) (agent : Agent) : etagFields now agent =
    agent.slug.toList :: agent.displayName.toList ::
      ((description agent.metadata).getD "").toList :: tailFields now agent := rfl

theorem not_separator_tail {x : List Char} (hx : x ∈ tailFields now agent) (hc : c ∈ x) :
    separator c = false := by
  have hwords : (["0", "1", "sync", "async", "online", "away", "offline", ""].all fun s =>
      s.toList.all fun c => !separator c) = true := by decide
  have hall : ∀ s ∈ ["0", "1", "sync", "async", "online", "away", "offline", ""],
      ∀ c ∈ s.toList, separator c = false := fun s hs c hc => by
    simpa using List.all_eq_true.mp (List.all_eq_true.mp hwords s hs) c hc
  simp only [tailFields, List.map_cons, List.map_nil, List.mem_cons, List.not_mem_nil, or_false] at hx
  rcases hx with rfl | rfl | rfl | rfl
  · refine hall _ ?_ c hc
    unfold flag
    split <;> decide
  · refine hall _ ?_ c hc
    unfold preferredContact
    split <;> decide
  · refine hall _ ?_ c hc
    generalize (deriveOnlineState now agent.lastSeenAt agent.status).2 = status
    cases status <;> decide
  · cases hseen : agent.lastSeenAt with
    | none =>
      rw [hseen] at hc
      cases hc
    | some seen =>
      rw [hseen] at hc
      exact not_separator_toString _ hc

theorem count_free {x : List Char} (h : ∀ c ∈ x, separator c = false) : x.count '|' = 0 :=
  List.count_eq_zero.mpr fun hmem => absurd (h _ hmem) (by decide)

/-- Six separators, and those in the display name and the description. -/
theorem count_part (h : slugPattern agent.slug.toList = true) : (part now agent).count '|' =
    6 + agent.displayName.toList.count '|' +
      ((description agent.metadata).getD "").toList.count '|' := by
  have hcount := count_join '|' (etagFields now agent) (List.cons_ne_nil _ _)
  have hslug := count_free fun c hc => not_separator_slug h hc
  have htail : ((tailFields now agent).map (List.count '|')).sum = 0 := by
    refine List.sum_eq_zero_iff_forall_eq_nat.mpr fun n hn => ?_
    obtain ⟨x, hx, rfl⟩ := List.mem_map.mp hn
    exact count_free fun c hc => not_separator_tail hx hc
  have hlength : (etagFields now agent).length = 7 := rfl
  rw [hlength, etagFields_eq, List.map_cons, List.map_cons, List.map_cons, List.sum_cons,
    List.sum_cons, List.sum_cons, htail, hslug, ← etagFields_eq] at hcount
  unfold part
  omega

theorem count_rosterText (now : Time) (rows : List Agent) :
    (rosterText now rows).count '|' = (rows.map fun agent => (part now agent).count '|').sum := by
  rw [rosterText, count_join_ne (by decide), List.map_map]
  rfl

/-- Every agent adds six separators at least. -/
theorem six_le_count (now : Time) (h : Admitted rows) : 6 * rows.length ≤ (rosterText now rows).count '|' := by
  rw [count_rosterText]
  induction rows with
  | nil => exact Nat.le_refl _
  | cons agent rows ih =>
    obtain ⟨hagent, hrows⟩ := List.forall_mem_cons.mp h
    have hrest := ih hrows
    rw [List.length_cons, List.map_cons, List.sum_cons, count_part hagent]
    omega

/-! ## Texts that are free of separators -/

theorem flag_injective : Function.Injective flag := by
  intro x y h
  cases x <;> cases y <;> first | rfl | exact absurd h (by decide)

theorem text_injective : Function.Injective Status.text := by
  intro x y h
  cases x <;> cases y <;> first | rfl | exact absurd h (by decide)

/-- The fields of the part, and the description, are all there is in a material entry. -/
theorem material_of_fields (h : etagFields now agent = etagFields now' agent')
    (hdescription : description agent.metadata = description agent'.metadata) :
    material (buildRosterEntry now agent).1 = material (buildRosterEntry now' agent').1 := by
  have htexts := List.map_injective_iff.mpr (fun _ _ => String.toList_inj.mp) h
  simp only [List.cons.injEq] at htexts
  obtain ⟨hslug, hname, -, hflag, hcontact, hstatus, -⟩ := htexts
  simp only [material, buildRosterEntry, Prod.mk.injEq]
  exact ⟨hslug, hname, hdescription, flag_injective hflag, hcontact, text_injective hstatus⟩

theorem fields_of_part (h : slugPattern agent.slug.toList = true)
    (h' : slugPattern agent'.slug.toList = true)
    (hsix : (part now agent).count '|' = 6) (heq : part now agent = part now' agent') :
    etagFields now agent = etagFields now' agent' := by
  have hfree {now : Time} {agent : Agent} (h : slugPattern agent.slug.toList = true)
      (hsix : (part now agent).count '|' = 6) : ∀ x ∈ etagFields now agent, '|' ∉ x := by
    rw [count_part h] at hsix
    rw [etagFields_eq]
    simp only [List.forall_mem_cons]
    refine ⟨fun hmem => absurd (not_separator_slug h hmem) (by decide),
      List.count_eq_zero.mp (by omega), List.count_eq_zero.mp (by omega),
      fun x hx hmem => absurd (not_separator_tail hx hmem) (by decide)⟩
  exact join_injective (hfree h hsix) (hfree h' (heq ▸ hsix)) (List.cons_ne_nil _ _)
    (List.cons_ne_nil _ _) heq

/-- The free texts of the agents have no separator, and no description is empty. -/
def Separable (rows : List Agent) : Prop :=
  ∀ agent ∈ rows, (∀ c ∈ agent.displayName.toList, separator c = false) ∧
    (∀ c ∈ ((description agent.metadata).getD "").toList, separator c = false) ∧
    description agent.metadata ≠ some ""

theorem separable_of_all (h : rows.all (fun agent =>
    agent.displayName.toList.all (fun c => !separator c) &&
      ((description agent.metadata).getD "").toList.all (fun c => !separator c) &&
      description agent.metadata ≠ some "") = true) : Separable rows := by
  intro agent hagent
  have hall := List.all_eq_true.mp h agent hagent
  simp only [Bool.and_eq_true, List.all_eq_true, Bool.not_eq_true', decide_eq_true_eq] at hall
  exact ⟨hall.1.1, hall.1.2, hall.2⟩

theorem description_of_getD {d d' : Option String} (hd : d ≠ some "") (hd' : d' ≠ some "")
    (h : d.getD "" = d'.getD "") : d = d' := by
  cases d with
  | none =>
    cases d' with
    | none => rfl
    | some s' => exact absurd (congrArg some h.symm) hd'
  | some s =>
    cases d' with
    | none => exact absurd (congrArg some h) hd
    | some s' => exact congrArg some h

theorem getD_of_fields (h : etagFields now agent = etagFields now' agent') :
    (description agent.metadata).getD "" = (description agent'.metadata).getD "" := by
  rw [etagFields_eq, etagFields_eq] at h
  exact String.toList_inj.mp (List.cons.inj (List.cons.inj (List.cons.inj h).2).2).1

/-- The part of such an agent is one line, with six separators. -/
theorem part_separable (now : Time) (hs : Separable [agent]) (h : slugPattern agent.slug.toList = true) :
    '\n' ∉ part now agent ∧ (part now agent).count '|' = 6 := by
  obtain ⟨hname, hdescription, -⟩ := hs agent (List.mem_singleton_self agent)
  constructor
  · intro hmem
    rcases mem_join hmem with heq | ⟨x, hx, hc⟩
    · exact absurd heq (by decide)
    · have hfree : separator '\n' = false := by
        rw [etagFields_eq] at hx
        simp only [List.mem_cons] at hx
        rcases hx with rfl | rfl | rfl | hx
        · exact not_separator_slug h hc
        · exact hname _ hc
        · exact hdescription _ hc
        · exact not_separator_tail hx hc
      exact absurd hfree (by decide)
  · rw [count_part h, count_free hname, count_free hdescription]

theorem materials_of_parts (hs : Separable rows) (hs' : Separable rows') (h : Admitted rows)
    (h' : Admitted rows') (heq : rows.map (part now) = rows'.map (part now')) :
    materials now rows = materials now' rows' := by
  induction rows generalizing rows' with
  | nil =>
    rw [List.map_nil] at heq
    rw [List.map_eq_nil_iff.mp heq.symm]
    rfl
  | cons agent rows ih =>
    cases rows' with
    | nil => cases heq
    | cons agent' rows' =>
      obtain ⟨hhead, htail⟩ := List.cons.inj heq
      obtain ⟨hagent, hrest⟩ := List.forall_mem_cons.mp hs
      obtain ⟨hagent', hrest'⟩ := List.forall_mem_cons.mp hs'
      obtain ⟨hslug, hslugs⟩ := List.forall_mem_cons.mp h
      obtain ⟨hslug', hslugs'⟩ := List.forall_mem_cons.mp h'
      have hsix := (part_separable now (List.forall_mem_singleton.mpr hagent) hslug).2
      have hfields := fields_of_part hslug hslug' hsix hhead
      have hdescription := description_of_getD hagent.2.2 hagent'.2.2 (getD_of_fields hfields)
      exact congrArg₂ List.cons (material_of_fields hfields hdescription)
        (ih hrest hrest' hslugs hslugs' htail)

/-- In rows without separators, the texts say what the entries are. -/
theorem materials_of_separable (hs : Separable rows) (hs' : Separable rows') (h : Admitted rows)
    (h' : Admitted rows') (heq : rosterText now rows = rosterText now' rows') :
    materials now rows = materials now' rows' := by
  have hlines {now : Time} {rows : List Agent} (hs : Separable rows) (h : Admitted rows) :
      ∀ x ∈ rows.map (part now), '\n' ∉ x := by
    refine List.forall_mem_map.mpr fun agent hmem => ?_
    exact (part_separable _ (List.forall_mem_singleton.mpr (hs agent hmem)) (h agent hmem)).1
  have hnil {now : Time} {rows : List Agent} (h : Admitted rows) (hzero : rosterText now rows = []) :
      rows = [] := by
    have hsix := six_le_count now h
    rw [hzero, List.count_nil] at hsix
    exact List.length_eq_zero_iff.mp (by omega)
  by_cases hrows : rows = []
  · subst hrows
    rw [hnil h' heq.symm]
    rfl
  · by_cases hrows' : rows' = []
    · subst hrows'
      exact absurd (hnil h heq) hrows
    · refine materials_of_parts hs hs' h h' ?_
      exact join_injective (hlines hs h) (hlines hs' h') (mt List.map_eq_nil_iff.mp hrows)
        (mt List.map_eq_nil_iff.mp hrows') heq

/-! ## A roster and all others -/

/-- No other roster has its ETag, unless with the same material entries. -/
def Sound (digest : List Char → List Char) (now : Time) (rows : List Agent) : Prop :=
  ∀ now' rows', Admitted rows' → etag digest now rows = etag digest now' rows' →
    materials now rows = materials now' rows'

/-- No agents, or one, whose texts have no separator and whose description is there. -/
def Alone (rows : List Agent) : Prop :=
  rows = [] ∨ ∃ agent e, rows = [agent] ∧ '|' ∉ agent.displayName.toList ∧
    description agent.metadata = some e ∧ e ≠ "" ∧ '|' ∉ e.toList

/-- An agent with these texts, which was seen when `agent` was. -/
def withTexts (slug : String) (name desc : List Char) (agent : Agent) : Agent :=
  { agent with
    slug
    displayName := String.ofList name
    metadata := .object [("description", .string (String.ofList desc))] }

theorem part_eq (now : Time) (agent : Agent) : part now agent =
    agent.slug.toList ++ '|' :: (agent.displayName.toList ++ '|' ::
      (((description agent.metadata).getD "").toList ++ '|' :: join '|' (tailFields now agent))) := by
  have hne : tailFields now agent ≠ [] := List.cons_ne_nil _ _
  rw [part, etagFields_eq, join_cons (List.cons_ne_nil _ _), join_cons (List.cons_ne_nil _ _),
    join_cons hne]

theorem part_withTexts (slug : String) (name desc : List Char) : part now (withTexts slug name desc agent) =
    slug.toList ++ '|' :: (name ++ '|' :: (desc ++ '|' :: join '|' (tailFields now agent))) := by
  rw [part_eq]
  have hdesc : (description (withTexts slug name desc agent).metadata).getD "" = String.ofList desc := rfl
  rw [hdesc, String.toList_ofList]
  change _ ++ '|' :: ((String.ofList name).toList ++ _) = _
  rw [String.toList_ofList]
  rfl

theorem rosterText_singleton : rosterText now [agent] = part now agent := join_singleton _ _

/-- What a sound roster says of one agent with the same text. -/
theorem Sound.one (hs : Sound digest now rows) (agent : Agent)
    (hslug : slugPattern agent.slug.toList = true)
    (h : rosterText now rows = part now agent) :
    materials now rows = [material (buildRosterEntry now agent).1] := by
  refine hs now [agent] (List.forall_mem_singleton.mpr hslug) ?_
  rw [etag_eq, etag_eq, h, rosterText_singleton]

/-- The text from the description of one agent to the tail of a later one, as one description. -/
theorem rosterText_swallow (now : Time) (agent : Agent) (hne : rows ≠ []) : ∃ desc, rosterText now (agent :: rows) =
    part now (withTexts agent.slug agent.displayName.toList desc (rows.getLast hne)) := by
  obtain ⟨front, hfront⟩ := join_last '\n' (mt List.map_eq_nil_iff.mp hne :
    rows.map (part now) ≠ [])
  rw [List.getLast_map, part_eq] at hfront
  generalize hlast : rows.getLast hne = last at hfront
  refine ⟨((description agent.metadata).getD "").toList ++ '|' :: (join '|' (tailFields now agent) ++
    '\n' :: (front ++ (last.slug.toList ++ '|' :: (last.displayName.toList ++ '|' ::
      ((description last.metadata).getD "").toList)))), ?_⟩
  rw [rosterText, List.map_cons, join_cons (mt List.map_eq_nil_iff.mp hne), hfront, part_eq,
    part_withTexts]
  simp only [List.append_assoc, List.cons_append]

/-- An agent with the same text has the same texts. -/
theorem Sound.texts (hs : Sound digest now [agent]) (hslug : slugPattern agent.slug.toList = true)
    {name desc : List Char} (h : part now agent = part now (withTexts agent.slug name desc agent)) :
    agent.displayName = String.ofList name ∧
      description agent.metadata = some (String.ofList desc) := by
  have hone := hs.one (withTexts agent.slug name desc agent) hslug
    (rosterText_singleton.trans h)
  have hmaterial := (List.cons.inj hone).1
  exact ⟨congrArg (fun m => m.2.1) hmaterial, congrArg (fun m => m.2.2.1) hmaterial⟩

/-- A separator in the display name would move its rest to the description. -/
theorem Sound.name_free (hs : Sound digest now [agent]) (hslug : slugPattern agent.slug.toList = true) :
    '|' ∉ agent.displayName.toList := by
  intro hmem
  obtain ⟨front, rest, hsplit⟩ := List.append_of_mem hmem
  have hpart : part now agent = part now (withTexts agent.slug front
      (rest ++ '|' :: ((description agent.metadata).getD "").toList) agent) := by
    rw [part_eq, part_withTexts, hsplit]
    simp only [List.append_assoc, List.cons_append]
  have hlength := congrArg (fun s => s.toList.length) (hs.texts hslug hpart).1
  simp [hsplit] at hlength

/-- So would one in the description, the other way. -/
theorem Sound.description_free (hs : Sound digest now [agent])
    (hslug : slugPattern agent.slug.toList = true) :
    '|' ∉ ((description agent.metadata).getD "").toList := by
  intro hmem
  obtain ⟨front, rest, hsplit⟩ := List.append_of_mem hmem
  have hpart : part now agent =
      part now (withTexts agent.slug (agent.displayName.toList ++ '|' :: front) rest agent) := by
    rw [part_eq, part_withTexts, hsplit]
    simp only [List.append_assoc, List.cons_append]
  have hlength := congrArg (fun s => s.toList.length) (hs.texts hslug hpart).1
  simp at hlength

/-- No description and the empty one have the same text. -/
theorem Sound.described (hs : Sound digest now [agent])
    (hslug : slugPattern agent.slug.toList = true) :
    ∃ e, description agent.metadata = some e ∧ e ≠ "" := by
  cases hdesc : description agent.metadata with
  | none =>
    have hpart : part now agent =
        part now (withTexts agent.slug agent.displayName.toList [] agent) := by
      rw [part_eq, part_withTexts, hdesc]
      rfl
    exact nomatch hdesc.symm.trans (hs.texts hslug hpart).2
  | some e =>
    refine ⟨e, rfl, ?_⟩
    rintro rfl
    have hpart : rosterText now [agent] = part now { agent with metadata := .object [] } := by
      rw [rosterText_singleton, part_eq, part_eq, hdesc]
      rfl
    have hone := hs.one { agent with metadata := .object [] } hslug hpart
    have hnone := congrArg (fun m => m.2.2.1) (List.cons.inj hone).1
    exact nomatch hdesc.symm.trans hnone

theorem Sound.alone (hs : Sound digest now rows) (hadmitted : Admitted rows) : Alone rows := by
  cases rows with
  | nil => exact .inl rfl
  | cons agent rows =>
    have hslug := hadmitted agent List.mem_cons_self
    by_cases hne : rows = []
    · subst hne
      obtain ⟨e, hdesc, hnonempty⟩ := hs.described hslug
      have hfree := hs.description_free hslug
      rw [hdesc, Option.getD_some] at hfree
      exact .inr ⟨agent, e, rfl, hs.name_free hslug, hdesc, hnonempty, hfree⟩
    · obtain ⟨desc, hdesc⟩ := rosterText_swallow now agent hne
      have hone := congrArg List.length (hs.one (withTexts _ _ _ _) hslug hdesc)
      simp only [materials, List.length_map, List.length_cons, List.length_nil] at hone
      exact absurd (List.length_eq_zero_iff.mp (by omega)) hne

theorem Alone.sound (halone : Alone rows) (hinj : Function.Injective digest)
    (hadmitted : Admitted rows) : Sound digest now rows := by
  intro now' rows' hadmitted' hetag
  have heq := (etag_eq_iff hinj).mp hetag
  have hsix' := six_le_count now' hadmitted'
  rw [← heq] at hsix'
  rcases halone with rfl | ⟨agent, e, rfl, hname, hdesc, hne, hfree⟩
  · have hnil : rows' = [] := List.length_eq_zero_iff.mp (by
      rw [rosterText, List.map_nil] at hsix'
      change 6 * rows'.length ≤ 0 at hsix'
      omega)
    rw [hnil]
    rfl
  · have hslug := hadmitted agent (List.mem_singleton_self agent)
    have hsix : (part now agent).count '|' = 6 := by
      rw [count_part hslug, hdesc, Option.getD_some, List.count_eq_zero.mpr hname,
        List.count_eq_zero.mpr hfree]
    rw [rosterText_singleton] at heq hsix'
    rw [hsix] at hsix'
    cases rows' with
    | nil =>
      rw [heq] at hsix
      cases hsix
    | cons agent' rest =>
      have hnil : rest = [] := List.length_eq_zero_iff.mp (by
        rw [List.length_cons] at hsix'
        omega)
      subst hnil
      rw [rosterText_singleton] at heq
      have hslug' := hadmitted' agent' (List.mem_singleton_self agent')
      have hfields := fields_of_part hslug hslug' hsix heq
      have hgetD := getD_of_fields hfields
      rw [hdesc, Option.getD_some] at hgetD
      have hdesc' : description agent.metadata = description agent'.metadata := by
        cases hother : description agent'.metadata with
        | none =>
          rw [hother] at hgetD
          exact absurd hgetD hne
        | some e' =>
          rw [hother] at hgetD
          rw [hdesc, hgetD]
          rfl
      exact congrArg (fun m => [m]) (material_of_fields hfields hdesc')

/-! ## The answers -/

theorem strip_etag (digest : List Char → List Char) (now : Time) (rows : List Agent) :
    strip (etag digest now rows) = etag digest now rows := by
  have hends : etag digest now rows =
      'W' :: (['/', JsonText.quote] ++ digest (rosterText now rows) ++ [JsonText.quote]) := rfl
  rw [hends]
  simp only [strip]
  rw [List.dropWhile_cons_of_neg (by decide), ← List.cons_append,
    List.rdropWhile_concat_neg _ _ _ (by decide)]

/-- A client that sends back the ETag of one roster gets a 304 for another exactly when their ETags
are equal. -/
theorem not_modified_iff (digest : List Char → List Char) (now now' : Time) (rows rows' : List Agent) :
    (getRoster digest (some (etag digest now rows)) now' rows').1 = none ↔
      etag digest now rows = etag digest now' rows' := by
  have hmatches : etagMatches (some (etag digest now rows)) (etag digest now' rows') =
      decide (etag digest now rows = etag digest now' rows') := by
    simp only [etagMatches, strip_etag]
    rw [etag_eq]
    simp
  change (if etagMatches (some (etag digest now rows)) (etag digest now' rows') then _ else _ :
    Option (List Entry) × List Char).1 = none ↔ _
  rw [hmatches]
  split <;> simp_all

/-- A roster's ETag stands for its material entries exactly when it is empty, or has one agent whose
texts have no separator and whose description is not empty; among rosters without separators and
empty descriptions, every ETag does. -/
theorem etag_sound_iff (digest : List Char → List Char) (hinj : Function.Injective digest) :
    (∀ now rows, Admitted rows → (Sound digest now rows ↔ Alone rows)) ∧
      ∀ now now' rows rows', Admitted rows → Admitted rows' → Separable rows → Separable rows' →
        etag digest now rows = etag digest now' rows' → materials now rows = materials now' rows' := by
  constructor
  · intro now rows hadmitted
    exact ⟨fun hs => hs.alone hadmitted, fun halone => halone.sound hinj hadmitted⟩
  · intro now now' rows rows' h h' hs hs' hetag
    exact materials_of_separable hs hs' h h' ((etag_eq_iff hinj).mp hetag)

def described (slug displayName : String) (description : Option String)
    (lastSeenAt : Option Time) : Agent where
  slug
  displayName
  metadata := .object (description.toList.map fun s => ("description", .string s))
  lastSeenAt

/-- Two agents, of which the first was seen at the instant given in seconds. -/
def pair (seen : Nat) : List Agent :=
  [described "a" "A" (some "writes") (some (seconds seen)), described "b" "B" none none]

/-- A roster of one agent with a description, held; and one of two, taken again when its first agent has
been seen once more: the relative times differ, and what the ETag stands for is the same. -/
theorem etag_sound_iff_again : Sound id (seconds 1010) [described "a" "A" (some "writes") none] ∧
    (listRoster id (seconds 1010) (pair 1000)).1 ≠ (listRoster id (seconds 1220) (pair 1100)).1 ∧
    materials (seconds 1010) (pair 1000) = materials (seconds 1220) (pair 1100) := by
  have hetag : etag id (seconds 1010) (pair 1000) = etag id (seconds 1220) (pair 1100) := by
    decide +kernel
  refine ⟨?_, by decide +kernel, ?_⟩
  · refine ((etag_sound_iff id Function.injective_id).1 _ _ (by unfold Admitted; decide)).mpr ?_
    exact .inr ⟨_, "writes", rfl, by decide, rfl, by decide, by decide⟩
  · exact (etag_sound_iff id Function.injective_id).2 _ _ _ _ (by unfold Admitted; decide)
      (by unfold Admitted; decide) (separable_of_all (by decide)) (separable_of_all (by decide)) hetag

/-- The separator moves from the display name to the description. -/
theorem etag_hides_change : ¬ ∀ digest : List Char → List Char, Function.Injective digest →
    ∀ now now' rows rows', Admitted rows → Admitted rows' →
      etag digest now rows = etag digest now' rows' → materials now rows = materials now' rows' := by
  intro h
  have hsame := h id Function.injective_id 0 0 [described "a" "A|x" none none]
    [described "a" "A" (some "x|") none] (by unfold Admitted; decide) (by unfold Admitted; decide)
    (by decide)
  revert hsame
  decide

end CueApi.Roster
