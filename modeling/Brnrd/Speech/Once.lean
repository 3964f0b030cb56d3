import Brnrd.Speech.Speak

/-! Speech goes out at most once for a letter, over every run with crashes; and
what holds of its reports and its records where no router forgets an attempt. -/
namespace Brnrd.Speech

open Python Facts Ledger Leases

variable {receipt : Receipt} {journal : List Entry}

theorem receiptOf_append (entry : Entry) (h : receiptOf journal = some receipt) :
    receiptOf (journal ++ [entry]) = some receipt := by
  unfold receiptOf at h ⊢
  rw [List.findSome?_append, h]
  rfl

theorem receiptOf_sent (h : receiptOf journal = none) : receiptOf (journal ++ [.sent receipt]) = some receipt := by
  unfold receiptOf at h ⊢
  rw [List.findSome?_append, h]
  rfl

theorem receiptOf_intended (journal : List Entry) : receiptOf (journal ++ [.intended]) = receiptOf journal := by
  unfold receiptOf
  rw [List.findSome?_append]
  exact Option.or_none

/-- What `speak` may say of a letter: what the receipt says, or that nobody knows. -/
def Spoken (journal : List Entry) (status : Status) (receipt : Receipt) : Prop :=
  receiptOf journal = some receipt ∧ status = receipt.status ∨ status = .maybeSent ∧ receipt = .empty

theorem Receipt.status_ne_maybeSent (receipt : Receipt) : receipt.status ≠ .maybeSent := by
  unfold Receipt.status
  split <;> decide

variable {status : Status}

theorem Spoken.snoc (entry : Entry) (h : Spoken journal status receipt) : Spoken (journal ++ [entry]) status receipt :=
  h.imp_left fun h => ⟨receiptOf_append entry h.1, h.2⟩

theorem Spoken.unique {receipt' : Receipt} (h : Spoken journal status receipt) (h' : Spoken journal status receipt') :
    receipt = receipt' := by
  rcases h with ⟨hReceipt, rfl⟩ | ⟨rfl, rfl⟩
  · rcases h' with ⟨hReceipt', -⟩ | ⟨hStatus, -⟩
    · exact Option.mem_unique hReceipt hReceipt'
    · exact absurd hStatus receipt.status_ne_maybeSent
  · rcases h' with ⟨-, hStatus⟩ | ⟨-, rfl⟩
    · exact absurd hStatus.symm receipt'.status_ne_maybeSent
    · rfl

variable {n parts : Nat}

/-- A message id is recorded only off a receipt. -/
theorem Spoken.receiptOf {ident : Value} (h : Spoken journal status receipt) (hIdent : receipt.ids[n]? = some ident) :
    receiptOf journal = some receipt := by
  rcases h with ⟨hReceipt, -⟩ | ⟨-, rfl⟩
  · exact hReceipt
  · cases hIdent

theorem partId_injective (key : String) {m : Nat} (h : partId key n = partId key m) : n = m := by
  have hDigits : Nat.toDigits 10 n = Nat.toDigits 10 m := by
    have hList := congrArg String.toList h
    simpa [partId, partKey] using hList
  calc n = Nat.ofDigitChars 10 (Nat.toDigits 10 n) 0 := by
        rw [Nat.ofDigitChars_toDigits (by decide) (by decide)]
    _ = Nat.ofDigitChars 10 (Nat.toDigits 10 m) 0 := by rw [hDigits]
    _ = m := Nat.ofDigitChars_toDigits (by decide) (by decide)

theorem partId_ne_speechId (key : String) (n : Nat) (state : String) : partId key n ≠ speechId key state := by
  intro h
  have hList := congrArg String.toList h
  simp [partId, speechId] at hList

theorem speechId_injective (key : String) {status' : Status} (h : speechId key status.state = speechId key status'.state) :
    status = status' := by
  have hList := congrArg String.toList h
  cases status <;> cases status' <;> first | rfl | simp [speechId, Status.state] at hList

/-- A recorded fact about the letter's speech says what the journal's receipt
says, under some channel or some generation. -/
structure Letter.Sound (letter : Letter) (journal : List Entry) (fact : Fact) : Prop where
  part : ∀ n, fact.id = partId letter.key n → ∃ receipt parts ident channel, receiptOf journal = some receipt ∧
    n = parts + 1 ∧ receipt.ids[parts]? = some ident ∧ content fact = content (letter.partFact channel n ident)
  speech : ∀ status : Status, fact.id = speechId letter.key status.state → ∃ gen receipt,
    Spoken journal status receipt ∧ content fact = content (letter.speechFact gen status receipt.reason)

variable {fact stored : Fact} {letter : Letter}

theorem Letter.Sound.snoc (entry : Entry) (h : letter.Sound journal fact) : letter.Sound (journal ++ [entry]) fact := by
  constructor
  · intro n hId
    obtain ⟨receipt, parts, ident, channel, hReceipt, hRest⟩ := h.part n hId
    exact ⟨receipt, parts, ident, channel, receiptOf_append entry hReceipt, hRest⟩
  · intro status hId
    obtain ⟨gen, receipt, hSpoken, hContent⟩ := h.speech status hId
    exact ⟨gen, receipt, hSpoken.snoc entry, hContent⟩

theorem Letter.Sound.congr (h : letter.Sound journal fact) (hId : stored.id = fact.id)
    (hContent : content stored = content fact) :
    letter.Sound journal stored := by
  constructor
  · rw [hId, hContent]
    exact h.part
  · rw [hId, hContent]
    exact h.speech

/-- A fact about anything else. -/
theorem Letter.Sound.other (h : ¬letter.Own fact.id) :
    letter.Sound journal fact :=
  ⟨fun n hId => absurd (Or.inl ⟨n, hId⟩) h, fun status hId => absurd (Or.inr ⟨status, hId⟩) h⟩

/-- What `speak` appends is sound when it may say so. -/
theorem Letter.fact_sound (call : Call) (parts : Nat) (h : Spoken journal status receipt) :
    letter.Sound journal (letter.fact call status receipt parts) := by
  unfold Letter.fact
  cases hIdent : receipt.ids[parts]? with
  | some ident =>
      constructor
      · intro n hId
        obtain rfl := partId_injective letter.key hId
        exact ⟨receipt, parts, ident, call.channel, h.receiptOf hIdent, rfl, hIdent, rfl⟩
      · intro other hId
        exact absurd hId (partId_ne_speechId letter.key _ _)
  | none =>
      constructor
      · intro n hId
        exact absurd hId.symm (partId_ne_speechId letter.key n _)
      · intro other hId
        obtain rfl := speechId_injective letter.key hId
        exact ⟨call.lease.gen, receipt, h, rfl⟩

/-- The facts of the folder that have the id of `fact` name its router
generation and its channel. -/
def Clear (folder : Folder) (fact : Fact) : Prop :=
  ∀ g ∈ folder.own, g.id = fact.id →
    Dict.get g.data "router_gen" = Dict.get fact.data "router_gen" ∧
    Dict.get g.data "channel" = Dict.get fact.data "channel"

variable {call : Call}

/-- A fact that is recorded already, under the same generation and channel, is
recorded with the same content. -/
theorem Letter.Sound.content_eq {g : Fact} (hSound : letter.Sound journal g) (h : Spoken journal status receipt)
    (hId : g.id = (letter.fact call status receipt parts).id)
    (hGen : Dict.get g.data "router_gen" = Dict.get (letter.fact call status receipt parts).data "router_gen")
    (hChannel : Dict.get g.data "channel" = Dict.get (letter.fact call status receipt parts).data "channel") :
    content g = content (letter.fact call status receipt parts) := by
  unfold Letter.fact at hId hGen hChannel ⊢
  cases hIdent : receipt.ids[parts]? with
  | some ident =>
      rw [hIdent] at hId hChannel
      obtain ⟨receipt', parts', ident', channel, hReceipt, hParts, hIdent', hContent⟩ := hSound.part _ hId
      obtain rfl : receipt' = receipt := Option.some.inj (hReceipt.symm.trans (h.receiptOf hIdent))
      obtain rfl : parts' = parts := (Nat.succ.inj hParts).symm
      obtain rfl : ident' = ident := Option.mem_unique hIdent' hIdent
      have hData : g.data = (letter.partFact channel (parts' + 1) ident').data :=
        congrArg (fun c => c.2.2) hContent
      rw [hData] at hChannel
      have hSame : Value.str channel = Value.str call.channel := hChannel
      rw [hContent, Value.str.inj hSame]
  | none =>
      rw [hIdent] at hId hGen
      obtain ⟨gen, receipt', hSpoken, hContent⟩ := hSound.speech status hId
      obtain rfl : receipt' = receipt := hSpoken.unique h
      have hData : g.data = (letter.speechFact gen status receipt'.reason).data :=
        congrArg (fun c => c.2.2) hContent
      rw [hData] at hGen
      have hSame : Value.int gen = Value.int call.lease.gen := hGen
      rw [hContent, Value.int.inj hSame]

theorem Letter.fact_kind (letter : Letter) (call : Call) (status : Status) (receipt : Receipt) (parts : Nat) :
    (letter.fact call status receipt parts).kind ∈ ["speech.part", "speech"] := by
  unfold Letter.fact
  split
  · exact List.mem_cons_self
  · exact List.mem_cons_of_mem _ List.mem_cons_self

/-- The ledger takes the facts of these kinds, in the loom's file. -/
theorem speech_files (hKind : fact.kind ∈ ["speech.part", "speech"]) :
    admitFact fact = none ∧ ∀ hlc, factFilename { fact with hlc := hlc } = some "loom.jsonl" := by
  constructor
  · have hOpen : ∀ kind ∈ ["speech.part", "speech"], resourceOf kind ∉ closed := by decide
    rw [admitFact, if_pos (hOpen fact.kind hKind)]
  · intro hlc
    have hLoom : ∀ kind ∈ ["speech.part", "speech"], kind ∈ loomKinds := by decide
    have hFile : inLoomFile { fact with hlc := hlc } := by
      simp only [inLoomFile, Bool.or_eq_true]
      exact .inl (.inr (decide_eq_true (hLoom fact.kind hKind)))
    rw [factFilename, if_pos hFile]

/-- The folder's index is in step, no id is recorded twice, and what it says
about the letter's speech is sound. -/
structure Letter.Filed (letter : Letter) (journal : List Entry) (folder : Folder) : Prop where
  inStep : folder.InStep
  once : (folder.own.map Fact.id).Nodup
  sound : ∀ f ∈ folder.own, letter.Sound journal f

theorem Letter.Filed.snoc {folder : Folder} (entry : Entry) (h : letter.Filed journal folder) :
    letter.Filed (journal ++ [entry]) folder :=
  ⟨h.inStep, h.once, fun f hf => (h.sound f hf).snoc entry⟩

theorem Letter.Filed.append {folder after : Folder} {ms : Int} {install : String} (h : letter.Filed journal folder)
    (hFact : letter.Sound journal fact) (hAppend : append ms install folder fact = .ok (after, stored)) :
    letter.Filed journal after := by
  obtain ⟨hNext, hCases⟩ := append_cases h.inStep hAppend
  rcases hCases with ⟨hOwn, -, -⟩ | ⟨hOwn, hFresh, index, -, hStored⟩
  · exact ⟨hNext, hOwn ▸ h.once, hOwn ▸ h.sound⟩
  · have hId : stored.id = fact.id := by rw [hStored]
    refine ⟨hNext, ?_, ?_⟩
    · rw [hOwn, List.map_append, List.nodup_append]
      refine ⟨h.once, List.nodup_singleton _, ?_⟩
      intro ident hIdent ident' hIdent'
      obtain ⟨g, hg, rfl⟩ := List.mem_map.mp hIdent
      rw [List.mem_singleton.mp hIdent', hId]
      exact hFresh g hg
    · intro f hf
      rw [hOwn] at hf
      rcases List.mem_append.mp hf with hf | hf
      · exact h.sound f hf
      · rw [List.mem_singleton.mp hf]
        exact hFact.congr hId (append_content hAppend)

/-- The process starts over: the index it kept is gone. -/
theorem Letter.Filed.crash {folder : Folder} (h : letter.Filed journal folder) :
    letter.Filed journal { folder with index := ⟨0, [], []⟩ } := by
  refine ⟨⟨[], folder.own, rfl, ?_⟩, h.once, h.sound⟩
  exact ⟨rfl, fun install => rfl, fun ident old hOld => by simp at hOld, fun f hf => by simp at hf⟩

/-- Where the process stands, the journal says how far it came. -/
def Stage.Stands (journal : List Entry) (attempts : Nat) : Stage → Prop
  | .idle | .speaking _ => True
  | .sending _ | .holding _ _ => attempts = 0
  | .intending _ _ => attempts = 0 ∧ .intended ∈ journal ∧ receiptOf journal = none
  | .attempting _ _ | .receiving _ _ _ => receiptOf journal = none
  | .leaving _ _ (.receipt receipt) => receiptOf journal = some receipt
  | .leaving _ _ _ => True
  | .recording _ status receipt _ => Spoken journal status receipt
  | .telling status => ∃ receipt, Spoken journal status receipt

/-- An attempt is behind the process's `intended`, and there is at most one. -/
structure Letter.Inv (letter : Letter) (w : World) : Prop where
  filed : letter.Filed w.journal w.folder
  once : w.attempts ≤ 1
  intended : 0 < w.attempts → .intended ∈ w.journal
  stands : w.stage.Stands w.journal w.attempts

theorem Letter.Inv.start (letter : Letter) : letter.Inv .start := by
  refine ⟨⟨⟨[], [], rfl, ?_⟩, List.nodup_nil, by simp [World.start, Folder.empty]⟩, Nat.zero_le 1, ?_, trivial⟩
  · exact ⟨rfl, fun install => rfl, fun ident old hOld => by simp [World.start, Folder.empty] at hOld,
      fun f hf => by simp at hf⟩
  · intro hPos
    exact absurd hPos (Nat.lt_irrefl 0)

variable {w : World}

/-- A step that leaves the stores alone keeps the invariant where the process
may come to stand there. -/
theorem Letter.Inv.stage (h : letter.Inv w) (send : Row) (reports : List Report) {stage : Stage}
    (hStands : stage.Stands w.journal w.attempts) :
    letter.Inv { w with send := send, reports := reports, stage := stage } :=
  ⟨h.filed, h.once, h.intended, hStands⟩

theorem Letter.Inv.record (h : letter.Inv w) (i : Inputs) (hStage : w.stage = .recording call status receipt parts) :
    letter.Inv (w.advance letter i) := by
  have hSpoken : Spoken w.journal status receipt := by
    have hStands := h.stands
    rwa [hStage] at hStands
  unfold World.advance
  rw [hStage]
  simp only
  cases hAppend : append i.ms letter.install w.folder (letter.fact call status receipt parts) with
  | error e => exact ⟨h.filed, h.once, h.intended, trivial⟩
  | ok result =>
      refine ⟨h.filed.append (letter.fact_sound call parts hSpoken) hAppend, h.once, h.intended, ?_⟩
      simp only
      split
      · exact hSpoken
      · exact ⟨receipt, hSpoken⟩

/-- One action of the process, by where it stands. -/
theorem Letter.Inv.advance (h : letter.Inv w) (i : Inputs) : letter.Inv (w.advance letter i) := by
  have hStands := h.stands
  cases hStage : w.stage with
  | idle =>
      rw [World.advance, hStage]
      exact h
  | speaking call =>
      rw [World.advance, hStage]
      simp only
      split
      · split
        · next receipt hReceipt => exact h.stage w.send w.reports (Or.inl ⟨hReceipt, rfl⟩)
        · next hReceipt =>
            split
            · exact h.stage w.send w.reports (Or.inr ⟨rfl, rfl⟩)
            · next hIntended =>
                refine h.stage w.send w.reports (Nat.eq_zero_of_not_pos ?_)
                exact fun hPos => hIntended (h.intended hPos)
      · exact h.stage w.send w.reports trivial
  | sending call =>
      rw [hStage] at hStands
      rw [World.advance, hStage]
      simp only
      split
      · split
        · next receipt hReceipt => exact h.stage w.send w.reports (Or.inl ⟨hReceipt, rfl⟩)
        · split
          · next row send hSend => exact h.stage row w.reports hStands
          · exact h.stage w.send w.reports (Or.inr ⟨rfl, rfl⟩)
      · exact h.stage w.send w.reports trivial
  | holding call send =>
      rw [hStage] at hStands
      rw [World.advance, hStage]
      simp only
      split
      · next receipt hReceipt => exact h.stage w.send w.reports hReceipt
      · next hReceipt =>
          refine ⟨h.filed.snoc _, h.once, fun _ => by simp, hStands, by simp, ?_⟩
          exact (receiptOf_intended w.journal).trans hReceipt
  | intending call send =>
      rw [hStage] at hStands
      obtain ⟨hNone, hIntended, hReceipt⟩ := hStands
      rw [World.advance, hStage]
      simp only
      split
      · refine ⟨h.filed, ?_, fun _ => hIntended, hReceipt⟩
        show w.attempts + 1 ≤ 1
        omega
      · exact h.stage w.send w.reports trivial
  | attempting call send =>
      rw [hStage] at hStands
      rw [World.advance, hStage]
      simp only
      split
      · exact h.stage w.send w.reports hStands
      · exact h.stage w.send w.reports trivial
  | receiving call send receipt =>
      rw [hStage] at hStands
      rw [World.advance, hStage]
      refine ⟨h.filed.snoc _, h.once, fun hPos => ?_, receiptOf_sent hStands⟩
      exact List.mem_append_left _ (h.intended hPos)
  | leaving call send ending =>
      rw [hStage] at hStands
      rw [World.advance, hStage]
      cases ending with
      | receipt receipt => exact h.stage _ w.reports (Or.inl ⟨hStands, rfl⟩)
      | raised => exact h.stage _ w.reports (Or.inr ⟨rfl, rfl⟩)
      | stale => exact h.stage _ w.reports trivial
  | recording call status receipt parts => exact h.record i hStage
  | telling status =>
      rw [World.advance, hStage]
      cases status <;> exact ⟨h.filed, h.once, h.intended, trivial⟩

/-- The router speaks, passes over a draft that another router may have spoken,
or leaves a draft of a later router alone. -/
theorem World.speakOut_cases (letter : Letter) (facts : List Fact) (grant : Int) (call : Call) (w : World) :
    w.speakOut letter facts grant call = { w with stage := .speaking call } ∨
    (grant < call.lease.gen ∧ heldSince facts letter.install grant call.lease.gen = false ∧
      w.speakOut letter facts grant call = w.told "stale-speech") ∨
    w.speakOut letter facts grant call = w := by
  unfold World.speakOut
  cases hHeld : heldSince facts letter.install grant call.lease.gen with
  | true =>
      by_cases hBehind : grant < call.lease.gen
      · simp [hBehind, hHeld]
      · by_cases hSame : grant = call.lease.gen <;> simp [hBehind, hSame]
  | false =>
      by_cases hBehind : grant < call.lease.gen
      · simp [hBehind, hHeld, hBehind.ne]
      · by_cases hSame : grant = call.lease.gen <;> simp [hBehind, hSame]

theorem Letter.Inv.step (h : letter.Inv w) {e : Event} (hAllowed : e.Allowed letter) : letter.Inv (w.step letter e) := by
  cases e with
  | speakOut facts grant call =>
      rw [World.step]
      split
      · rcases w.speakOut_cases letter facts grant call with hNext | ⟨-, -, hNext⟩ | hNext
        · rw [hNext]
          exact h.stage w.send w.reports trivial
        · rw [hNext]
          exact h.stage w.send _ trivial
        · rwa [hNext]
      · exact h
  | refuse =>
      simp only [World.step]
      split
      · exact h.stage w.send _ trivial
      · exact h
  | advance i => exact h.advance i
  | crash => exact ⟨h.filed.crash, h.once, h.intended, trivial⟩
  | elsewhere ms fact =>
      simp only [World.step]
      split
      · next hAppend => exact ⟨h.filed.append (.other hAllowed) hAppend, h.once, h.intended, h.stands⟩
      · exact h

variable {Meets : World → Event → Prop}

theorem Reach.inv (h : Reach letter Meets w) : letter.Inv w := by
  induction h with
  | start => exact .start letter
  | step _ hAllowed _ ih => exact ih.step hAllowed

/-- What the process is about to record is clear. -/
def Letter.RecordsClear (letter : Letter) (folder : Folder) : Stage → Prop
  | .recording call status receipt parts => Clear folder (letter.fact call status receipt parts)
  | _ => True

/-- The router never passes over a draft, or refuses it, while its attempt is
unknown, and records no fact again under another generation or channel. -/
def Careful (letter : Letter) (w : World) : Event → Prop
  | .speakOut facts grant call =>
      w.Unknown → grant < call.lease.gen → heldSince facts letter.install grant call.lease.gen
  | .refuse => ¬w.Unknown
  | .advance _ => letter.RecordsClear w.folder w.stage
  | .crash | .elsewhere _ _ => True

/-- Recording what was recorded under the same generation and channel. -/
theorem Letter.Inv.again (h : letter.Inv w) (hStage : w.stage = .recording call status receipt parts)
    (hClear : Clear w.folder (letter.fact call status receipt parts)) (ms : Int) :
    ∃ folder stored, append ms letter.install w.folder (letter.fact call status receipt parts) = .ok (folder, stored) ∧
      ((∃ g ∈ w.folder.own, g.id = (letter.fact call status receipt parts).id) → folder.own = w.folder.own) := by
  have hSpoken : Spoken w.journal status receipt := by
    have hStands := h.stands
    rwa [hStage] at hStands
  obtain ⟨hAdmit, hFile⟩ := speech_files (letter.fact_kind call status receipt parts)
  refine append_again h.filed.inStep h.filed.once hAdmit (fun hlc => by rw [hFile]; rfl) ?_
  intro g hg hId
  obtain ⟨hGen, hChannel⟩ := hClear g hg hId
  exact (h.filed.sound g hg).content_eq hSpoken hId hGen hChannel

/-- While the attempt is unknown, the process says nothing else. -/
theorem Letter.Inv.advance_reports (h : letter.Inv w) (hUnknown : w.Unknown) (i : Inputs)
    (hCareful : Careful letter w (.advance i)) {report : Report}
    (hReport : (w.advance letter i).reports = w.reports ++ [report]) : report.kind = "maybe-sent" := by
  have hSame : w.reports ≠ w.reports ++ [report] := by simp
  have hStands := h.stands
  unfold World.advance at hReport
  cases hStage : w.stage with
  | recording call status receipt parts =>
      have hClear : letter.RecordsClear w.folder w.stage := hCareful
      rw [hStage] at hClear
      obtain ⟨folder, stored, hAppend, -⟩ := h.again hStage hClear i.ms
      simp only [hStage, hAppend] at hReport
      exact absurd hReport hSame
  | telling status =>
      rw [hStage] at hStands
      obtain ⟨receipt, hSpoken⟩ := hStands
      rcases hSpoken with ⟨hReceipt, -⟩ | ⟨rfl, -⟩
      · rw [hUnknown.2] at hReceipt
        cases hReceipt
      · simp only [hStage, World.told] at hReport
        rw [← List.singleton_inj.mp (List.append_cancel_left hReport)]
  | _ =>
      simp only [hStage] at hReport
      repeat' split at hReport
      all_goals exact absurd hReport hSame

/-- While the attempt is unknown, a careful step reports nothing but that. -/
theorem Letter.Inv.reports (h : letter.Inv w) (hUnknown : w.Unknown) {e : Event} (hCareful : Careful letter w e)
    {report : Report} (hReport : (w.step letter e).reports = w.reports ++ [report]) :
    report.kind = "maybe-sent" := by
  have hSame : w.reports ≠ w.reports ++ [report] := by simp
  cases e with
  | speakOut facts grant call =>
      rw [World.step] at hReport
      split at hReport
      · rcases w.speakOut_cases letter facts grant call with hNext | ⟨hBehind, hHeld, -⟩ | hNext
        · rw [hNext] at hReport
          exact absurd hReport hSame
        · rw [hCareful hUnknown hBehind] at hHeld
          cases hHeld
        · rw [hNext] at hReport
          exact absurd hReport hSame
      · exact absurd hReport hSame
  | refuse => exact absurd hUnknown hCareful
  | crash => exact absurd hReport hSame
  | elsewhere ms fact =>
      rw [World.step] at hReport
      split at hReport <;> exact absurd hReport hSame
  | advance i => exact h.advance_reports hUnknown i hCareful hReport

/-- A step reports at most once, and says whether an attempt was unknown. -/
theorem World.step_reports (letter : Letter) (w : World) (e : Event) :
    (w.step letter e).reports = w.reports ∨
    ∃ kind, (w.step letter e).reports = w.reports ++ [⟨kind, decide w.Unknown⟩] := by
  cases e with
  | speakOut facts grant call =>
      rw [World.step]
      split
      · rcases w.speakOut_cases letter facts grant call with hNext | ⟨-, -, hNext⟩ | hNext
        · exact .inl (by rw [hNext])
        · exact .inr ⟨"stale-speech", by rw [hNext]; rfl⟩
        · exact .inl (by rw [hNext])
      · exact .inl rfl
  | refuse =>
      rw [World.step]
      split
      · exact .inr ⟨"speech-refused", rfl⟩
      · exact .inl rfl
  | crash => exact .inl rfl
  | elsewhere ms fact =>
      rw [World.step]
      split <;> exact .inl rfl
  | advance i =>
      show (w.advance letter i).reports = _ ∨ ∃ kind, (w.advance letter i).reports = _
      unfold World.advance
      repeat' split
      all_goals first | exact .inl rfl | exact .inr ⟨_, rfl⟩

theorem Reach.reports (h : Reach letter Meets w) (hCareful : ∀ w e, Meets w e → Careful letter w e) :
    ∀ r ∈ w.reports, r.unknown = true → r.kind = "maybe-sent" := by
  induction h with
  | start => exact fun r hr => absurd hr List.not_mem_nil
  | @step w e prior hAllowed hMeets ih =>
      rcases w.step_reports letter e with hSame | ⟨kind, hReport⟩
      · rwa [hSame]
      · intro r hr hUnknown
        rw [hReport] at hr
        rcases List.mem_append.mp hr with hr | hr
        · exact ih r hr hUnknown
        · obtain rfl := List.mem_singleton.mp hr
          exact prior.inv.reports (of_decide_eq_true hUnknown) (hCareful w e hMeets) hReport

/-- A pass over an unknown attempt, not cut off, ends by saying so. -/
theorem Letter.Inv.pass (h : letter.Inv w) (hUnknown : w.Unknown) (i j k : Inputs) (hStage : w.stage = .speaking call)
    (hAuthorized : i.authorized call = true) (hClear : Clear w.folder (letter.fact call .maybeSent .empty 0)) :
    (((w.advance letter i).advance letter j).advance letter k).reports = w.reports ++ [⟨"maybe-sent", true⟩] := by
  have hRead : w.advance letter i = { w with stage := .recording call .maybeSent .empty 0 } := by
    simp only [World.advance, hStage, hAuthorized, hUnknown.2, h.intended hUnknown.1, if_true]
  have hInv : letter.Inv { w with stage := .recording call .maybeSent .empty 0 } := hRead ▸ h.advance i
  obtain ⟨folder, stored, hAppend, -⟩ := hInv.again rfl hClear j.ms
  have hRecord : (w.advance letter i).advance letter j = { w with folder := folder, stage := .telling .maybeSent } := by
    rw [hRead]
    simp only [World.advance, hAppend]
    rfl
  have hTold : decide ({ w with folder := folder, stage := .telling .maybeSent } : World).Unknown = true :=
    decide_eq_true hUnknown
  rw [hRecord]
  simp only [World.advance, World.told, hTold]

/-- `out` is run at most once for a letter. In a run whose routers never pass
over an unknown attempt or refuse it, and record no fact again under another
generation or channel, an unknown attempt is reported as maybe-sent and as
nothing else, and recording the receipt again changes nothing. -/
theorem speech_once {letter : Letter} {Meets : World → Event → Prop} {w : World} (hReach : Reach letter Meets w) :
    w.attempts ≤ 1 ∧
    ((∀ w e, Meets w e → Careful letter w e) →
      (∀ r ∈ w.reports, r.unknown = true → r.kind = "maybe-sent") ∧
      (w.Unknown → ∀ call i j k, w.stage = .speaking call → i.authorized call = true →
        Clear w.folder (letter.fact call .maybeSent .empty 0) →
        (((w.advance letter i).advance letter j).advance letter k).reports = w.reports ++ [⟨"maybe-sent", true⟩]) ∧
      ∀ i call status receipt parts, w.stage = .recording call status receipt parts → Meets w (.advance i) →
        ∃ folder stored,
          append i.ms letter.install w.folder (letter.fact call status receipt parts) = .ok (folder, stored) ∧
          ((∃ g ∈ w.folder.own, g.id = (letter.fact call status receipt parts).id) → folder.own = w.folder.own)) := by
  have hInv := hReach.inv
  refine ⟨hInv.once, fun hCareful => ⟨hReach.reports hCareful, ?_, ?_⟩⟩
  · intro hUnknown call i j k hStage hAuthorized hClear
    exact hInv.pass hUnknown i j k hStage hAuthorized hClear
  · intro i call status receipt parts hStage hMeets
    have hClear : letter.RecordsClear w.folder w.stage := hCareful w _ hMeets
    rw [hStage] at hClear
    exact hInv.again hStage hClear i.ms

/-- The world after the events. -/
def World.after (letter : Letter) (events : List Event) : World :=
  events.foldl (World.step letter) .start

theorem World.after_snoc (letter : Letter) (events : List Event) (e : Event) :
    World.after letter (events ++ [e]) = (World.after letter events).step letter e := by
  simp [World.after]

theorem Reach.after {events : List Event} (hAllowed : ∀ e ∈ events, e.Allowed letter)
    (hMeets : ∀ n (h : n < events.length), Meets (World.after letter (events.take n)) events[n]) :
    Reach letter Meets (World.after letter events) := by
  induction events using List.reverseRecOn with
  | nil => exact .start
  | append_singleton events e ih =>
      rw [World.after_snoc]
      refine .step (ih (fun f hf => hAllowed f (by simp [hf])) ?_) (hAllowed e (by simp)) ?_
      · intro n hn
        have hPrior := hMeets n (by simp; omega)
        rwa [List.take_append_of_le_length hn.le, List.getElem_append_left hn] at hPrior
      · have hLast := hMeets events.length (by simp)
        rwa [List.take_left, List.getElem_concat_length rfl] at hLast

instance (folder : Folder) (fact : Fact) : Decidable (Clear folder fact) :=
  inferInstanceAs (Decidable (∀ g ∈ _, _))

instance (letter : Letter) (folder : Folder) : DecidablePred (letter.RecordsClear folder)
  | .recording _ _ _ _ => inferInstanceAs (Decidable (Clear _ _))
  | .idle | .speaking _ | .sending _ | .holding _ _ | .intending _ _ | .attempting _ _ | .receiving _ _ _
  | .leaving _ _ _ | .telling _ => isTrue trivial

instance (letter : Letter) (w : World) : DecidablePred (Careful letter w)
  | .speakOut _ _ _ => inferInstanceAs (Decidable (_ → _ → _))
  | .refuse => inferInstanceAs (Decidable ¬_)
  | .advance _ => inferInstanceAs (Decidable (letter.RecordsClear _ _))
  | .crash | .elsewhere _ _ => isTrue trivial

def answerLetter : Letter :=
  ⟨"aaaa", "s-a/answer", "safe"⟩

/-- The lease of a generation of the install's router. -/
def routerCall (gen : Int) : Call :=
  ⟨⟨"router", "aaaa", gen, 100, []⟩, "channel:relay/telegram:42"⟩

def routerFact (gen : Int) : Fact :=
  ⟨"router", "loom:aaaa", [("gen", .int gen), ("install", .str "aaaa")], "", "router", version, none, []⟩

/-- The process acts `n` times while the generation lasts, and `out` raises. -/
def acts (gen : Int) (n : Nat) : List Event :=
  List.replicate n (.advance ⟨10, ⟨gen, "aaaa", 100, some []⟩, "uuid", 1000, .raised⟩)

/-- A pass of the first router that dies before it tells, and one of its next
life, under the generation `gen`. -/
def unknownRun (gen : Int) (n : Nat) : List Event :=
  .speakOut [] 1 (routerCall 1) :: acts 1 7 ++ .crash ::
    .speakOut [routerFact 1, routerFact 2] 1 (routerCall gen) :: acts gen n

theorem unknownRun_allowed (gen : Int) (n : Nat) : ∀ e ∈ unknownRun gen n, e.Allowed answerLetter := by
  intro e he
  cases e with
  | elsewhere ms fact => simp [unknownRun, acts] at he
  | _ => trivial

theorem speech_once_maybeSent :
    (World.after answerLetter (unknownRun 1 3)).Unknown ∧
    (World.after answerLetter (unknownRun 1 3)).attempts ≤ 1 ∧
    ∀ r ∈ (World.after answerLetter (unknownRun 1 3)).reports, r.unknown = true → r.kind = "maybe-sent" := by
  have hReach : Reach answerLetter (Careful answerLetter) (World.after answerLetter (unknownRun 1 3)) :=
    .after (unknownRun_allowed 1 3) (by decide +kernel)
  obtain ⟨hOnce, hRun⟩ := speech_once hReach
  exact ⟨by decide +kernel, hOnce, (hRun fun w e h => h).1⟩

/-- The second router, of the same install, records the letter under its own
generation, which the ledger refuses: a letter that may have arrived is reported
as refused. -/
theorem speech_unknown_refused : ∃ w, Reach answerLetter (fun _ _ => True) w ∧ w.attempts = 1 ∧
    w.reports = [⟨"speech-refused", true⟩] :=
  ⟨World.after answerLetter (unknownRun 2 2), .after (unknownRun_allowed 2 2) fun _ _ => trivial,
    by decide +kernel⟩

end Brnrd.Speech
