import Brnrd.Cites.Sends

/-! Which letters the stop lists, against the ones that cite nothing and that no line of the
README's section names: for every set of letters, of granted channels, and every README. -/
namespace Brnrd.Cites

open Python Facts Port
open Stores (factRow)

/-- What it is for a line to name exactly a key: at the least, to hold it. -/
structure Reading where
  names : Text → Points → Prop
  holds : ∀ line key, names line key → key <:+: codePoints line

section Claims

variable (host : Host) (reading : Reading) (strand since : String) (drained : List Fact) (out : List (String × Option Text))
  (allowed : List Points) (readme : Option Text)

/-- A letter of the strand to a channel that carries no `re`: drained since it booted, or still
in `port/out`. -/
def Sent (send : Send) : Prop :=
  (∃ f ∈ drained, isSend strand since f = true ∧ sendOf host f = send) ∨ ∃ file ∈ out, outSend file = some send

/-- A granted chat, or a topic inside one. -/
def Granted (channel : Points) : Prop :=
  ∃ chat ∈ allowed, channel = chat ∨ ∃ topic, channel = chat ++ points ":" ++ topic

/-- A line of the section names exactly the key. -/
def Named (key : Points) : Prop :=
  ∃ line ∈ (missed readme).splitOn '\n', reading.names line key

/-- The keys of the letters that cite nothing and are not named, and no others. -/
def Listed : Prop :=
  ∀ key, key ∈ uncited host strand since drained out allowed readme ↔
    ∃ send, Sent host strand since drained out send ∧ ¬ Granted allowed send.to_ ∧
      ¬ Named reading readme (keyOf send) ∧ keyOf send = key

/-- The letter that stands under an id: the last one drained, or else the first one of the port. -/
def standing (ident : Points) : Option Send :=
  ((drained.filterMap (drainedSend host strand since)).filter fun send => send.id = ident).getLast?.or
    ((out.filterMap outSend).find? fun send => send.id = ident)

/-- The key of a letter that should be listed is that of a letter that stands under its own
id, to a channel that is not granted. -/
def Stands : Prop :=
  ∀ send, Sent host strand since drained out send → ¬ Granted allowed send.to_ → ¬ Named reading readme (keyOf send) →
    ∃ kept, standing host strand since drained out kept.id = some kept ∧ ¬ Granted allowed kept.to_ ∧ keyOf kept = keyOf send

/-- Where the section holds the key of a letter that cites nothing, a line of it names the key. -/
def Plain : Prop :=
  ∀ send, Sent host strand since drained out send → ¬ Granted allowed send.to_ →
    keyOf send <:+: codePoints (missed readme) → Named reading readme (keyOf send)

end Claims

variable {host : Host} {reading : Reading} {strand since : String} {drained : List Fact} {out : List (String × Option Text)}
  {allowed : List Points} {readme : Option Text} {f : Fact} {send : Send} {channel key : Points}

theorem within_iff : within channel allowed = true ↔ Granted allowed channel := by
  unfold within Granted
  simp only [List.any_eq_true, Bool.or_eq_true, decide_eq_true_eq, List.isPrefixOf_iff_prefix]
  refine exists_congr fun chat => and_congr_right fun _ => or_congr_right ?_
  exact exists_congr fun topic => eq_comm

/-- The line of a letter to a channel holds the word that a line is first looked over for. -/
theorem channel_lineOf (h : isChannel (Dict.get f.data "to") = true) : "\"channel:".toList <:+: lineOf f := by
  cases hTo : Dict.get f.data "to" with
  | str to_ =>
      rw [hTo] at h
      have hHead : '"' :: "channel:".toList <+: dumpsValue (.str to_) := by
        rw [dumpsValue, dumpsWith]
        exact prefix_dumps (List.isPrefixOf_iff_prefix.mp h) (by decide)
      have hData : dumpsValue (.str to_) <:+: dumpsValue (.obj f.data) := infix_dumpsValue (mem_of_get hTo (by simp))
      have hRow : ("data", .obj f.data) ∈ factRow f := by simp [factRow]
      exact hHead.isInfix.trans (hData.trans (infix_dumpsValue hRow))
  | null | bool _ | int _ | float _ _ | arr _ | obj _ =>
      rw [hTo] at h
      cases h

theorem drainedSend_eq_some : drainedSend host strand since f = some send ↔
    isSend strand since f = true ∧ sendOf host f = send := by
  unfold drainedSend
  by_cases hSend : isSend strand since f = true
  · have hChannel : isChannel (Dict.get f.data "to") = true := by
      simp only [isSend, Bool.and_eq_true] at hSend
      exact hSend.1.1.2
    rw [if_pos (channel_lineOf hChannel), if_pos hSend, Option.some.injEq, and_iff_right hSend]
  · refine iff_of_false (fun h => ?_) (fun h => hSend h.1)
    rw [if_neg hSend, ite_self] at h
    cases h

theorem sent_iff : Sent host strand since drained out send ↔
    send ∈ drained.filterMap (drainedSend host strand since) ∨ send ∈ out.filterMap outSend := by
  simp only [Sent, List.mem_filterMap, drainedSend_eq_some]

/-- The letters that are looked at are the ones that stand under their own ids. -/
theorem mem_channelSends : send ∈ channelSends host strand since drained out ↔
    standing host strand since drained out send.id = some send := by
  have hKeyed := ((Entries.Keyed.nil.foldl_set (drained.filterMap (drainedSend host strand since))).foldl_setDefault
    (out.filterMap outSend) : Entries.Keyed Send.id _)
  rw [channelSends, hKeyed.mem_values, Entries.get_foldl_setDefault_name Send.id, Entries.get_foldl_set_name Send.id,
    Entries.get, Option.or_none]
  rfl

theorem sent_of_standing {ident : Points} (h : standing host strand since drained out ident = some send) :
    Sent host strand since drained out send := by
  rw [sent_iff]
  rcases Option.or_eq_some_iff.mp h with hLast | ⟨-, hFirst⟩
  · exact .inl (List.mem_of_mem_filter (List.mem_of_getLast? hLast))
  · exact .inr (List.mem_of_find?_eq_some hFirst)

theorem mem_uncited : key ∈ uncited host strand since drained out allowed readme ↔
    ∃ kept, standing host strand since drained out kept.id = some kept ∧ ¬ Granted allowed kept.to_ ∧
      ¬ key <:+: codePoints (missed readme) ∧ keyOf kept = key := by
  have hFilter : ∀ sends : List Send,
      key ∈ ((sends.filter fun send => !within send.to_ allowed).map keyOf).filter
          (fun key => !decide (key <:+: codePoints (missed readme))) ↔
        ∃ kept ∈ sends, ¬ Granted allowed kept.to_ ∧ ¬ key <:+: codePoints (missed readme) ∧ keyOf kept = key := by
    intro sends
    simp only [List.mem_filter, List.mem_map, Bool.not_eq_true', ← within_iff, Bool.not_eq_true, decide_eq_false_iff_not]
    constructor
    · rintro ⟨⟨kept, ⟨hMem, hNot⟩, hKey⟩, hOut⟩
      exact ⟨kept, hMem, hNot, hOut, hKey⟩
    · rintro ⟨kept, hMem, hNot, hOut, hKey⟩
      exact ⟨⟨kept, ⟨hMem, hNot⟩, hKey⟩, hOut⟩
  simp only [← mem_channelSends]
  unfold uncited
  dsimp only
  split
  · rename_i hNil
    rw [hNil]
    simp
  · exact hFilter _

theorem not_named (hOut : ¬ key <:+: codePoints (missed readme)) : ¬ Named reading readme key := by
  rintro ⟨line, hLine, hNames⟩
  have hInfix : line <:+: missed readme := by
    have hJoin := @Joined.infix_intercalate _ ['\n'] _ _ hLine
    rwa [List.intercalate_splitOn] at hJoin
  obtain ⟨before, after, hText⟩ := hInfix
  refine hOut ((reading.holds line key hNames).trans ⟨codePoints before, codePoints after, ?_⟩)
  rw [← hText]
  simp [codePoints]

/-- The stop lists exactly the keys it should, if and only if the letters that it should list
stand under their ids, and the section holds no key but where a line of it names it. -/
theorem uncited_iff (host : Host) (reading : Reading) (strand since : String) (drained : List Fact)
    (out : List (String × Option Text)) (allowed : List Points) (readme : Option Text) :
    Listed host reading strand since drained out allowed readme ↔
      Stands host reading strand since drained out allowed readme ∧ Plain host reading strand since drained out allowed readme := by
  constructor
  · intro hListed
    refine ⟨fun send hSent hNot hNamed => ?_, fun send hSent hNot hHolds => by_contra fun hNamed => ?_⟩
    · obtain ⟨kept, hStanding, hGranted, -, hKey⟩ := mem_uncited.mp ((hListed _).mpr ⟨send, hSent, hNot, hNamed, rfl⟩)
      exact ⟨kept, hStanding, hGranted, hKey⟩
    · obtain ⟨-, -, -, hOut, -⟩ := mem_uncited.mp ((hListed _).mpr ⟨send, hSent, hNot, hNamed, rfl⟩)
      exact hOut hHolds
  · rintro ⟨hStands, hPlain⟩ key
    rw [mem_uncited]
    constructor
    · rintro ⟨kept, hStanding, hGranted, hOut, rfl⟩
      exact ⟨kept, sent_of_standing hStanding, hGranted, not_named hOut, rfl⟩
    · rintro ⟨send, hSent, hGranted, hNamed, rfl⟩
      obtain ⟨kept, hStanding, hNot, hKey⟩ := hStands send hSent hGranted hNamed
      exact ⟨kept, hStanding, hNot, fun hHolds => hNamed (hPlain send hSent hGranted hHolds), hKey⟩

/-- The key stands in the line with no letter or digit right behind it. -/
def wholeKey : Reading where
  names line key := ∃ rest ∈ (codePoints line).tails, key <+: rest ∧
    ∀ next ∈ (rest.drop key.length).head?, (Char.ofNat next).isAlphanum = false
  holds := by
    rintro line key ⟨rest, hRest, hKey, -⟩
    exact hKey.isInfix.trans ((List.mem_tails _ _).mp hRest).isInfix

instance (line : Text) (key : Points) : Decidable (wholeKey.names line key) :=
  inferInstanceAs (Decidable (∃ rest ∈ (codePoints line).tails, _))

instance (readme : Option Text) (key : Points) : Decidable (Named wholeKey readme key) :=
  inferInstanceAs (Decidable (∃ line ∈ (missed readme).splitOn '\n', _))

/-- A letter of the strand to a channel. -/
def channelLetter (ident : String) : Fact :=
  ⟨"letter", "strand:s-1", [("body", .str "hi"), ("id", .str ident), ("to", .str "channel:c")], "2026-11-01", ident,
    version, none, []⟩

/-- A README whose section names the second letter. -/
def secondMissed : Text :=
  "# t\n\n## Misses\n\n- send:channel:c@L12: said\n".toList

/-- The key of one letter is the beginning of another's, which a line names: neither is listed. -/
theorem uncited_hidden :
    ¬ Listed bareHost wholeKey "s-1" "2026" [channelLetter "L1", channelLetter "L12"] [] [] (some secondMissed) := by
  intro hListed
  have hNone : uncited bareHost "s-1" "2026" [channelLetter "L1", channelLetter "L12"] [] [] (some secondMissed) = [] := by
    decide +kernel
  have hFirst := (hListed (points "send:channel:c@L1")).mpr ⟨⟨points "L1", points "channel:c"⟩,
    .inl ⟨channelLetter "L1", List.mem_cons_self, by decide +kernel, by decide +kernel⟩,
    fun ⟨_, hMem, _⟩ => List.not_mem_nil hMem, by decide +kernel, by decide +kernel⟩
  rw [hNone] at hFirst
  exact List.not_mem_nil hFirst

end Brnrd.Cites
