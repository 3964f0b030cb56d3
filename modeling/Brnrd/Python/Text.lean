import Mathlib.Algebra.BigOperators.Group.List.Basic
import Mathlib.Algebra.GroupWithZero.Nat
import Mathlib.Data.List.Induction

/-! Bytes and text: UTF-8 decoding and `splitlines`. Both work line by line, so
a text may be cut behind a newline and read in two parts. -/
namespace Brnrd.Python

/-- A continuation byte. -/
def isTail (b : UInt8) : Bool :=
  0x80 ≤ b && b ≤ 0xBF

/-- A sequence that has begun: how many bytes are still to come, the bits read
so far, and the bounds of the next byte. -/
structure Pending where
  more : Nat
  bits : Nat
  low : UInt8
  high : UInt8

/-- What the first byte of a sequence of two, three or four bytes begins. -/
def lead (b : UInt8) : Option Pending :=
  if 0xC2 ≤ b && b ≤ 0xDF then some ⟨1, b.toNat - 0xC0, 0x80, 0xBF⟩
  else if b = 0xE0 then some ⟨2, 0, 0xA0, 0xBF⟩
  else if b = 0xED then some ⟨2, 0xD, 0x80, 0x9F⟩
  else if 0xE1 ≤ b && b ≤ 0xEF then some ⟨2, b.toNat - 0xE0, 0x80, 0xBF⟩
  else if b = 0xF0 then some ⟨3, 0, 0x90, 0xBF⟩
  else if 0xF1 ≤ b && b ≤ 0xF3 then some ⟨3, b.toNat - 0xF0, 0x80, 0xBF⟩
  else if b = 0xF4 then some ⟨3, 4, 0x80, 0x8F⟩
  else none

/-- The rest of a text from inside or between its sequences. -/
def decodeFrom : Option Pending → List UInt8 → Option (List Char)
  | none, [] => some []
  | some _, [] => none
  | none, b :: rest =>
      if b < 0x80 then (decodeFrom none rest).map (Char.ofNat b.toNat :: ·)
      else match lead b with
        | none => none
        | some pending => decodeFrom (some pending) rest
  | some pending, b :: rest =>
      let bits := pending.bits * 0x40 + (b.toNat - 0x80)
      if isTail b && pending.low ≤ b && b ≤ pending.high then
        if pending.more ≤ 1 then (decodeFrom none rest).map (Char.ofNat bits :: ·)
        else decodeFrom (some ⟨pending.more - 1, bits, 0x80, 0xBF⟩) rest
      else none

/-- `raw.decode()`, `none` where it raises. -/
def decode (raw : List UInt8) : Option (List Char) :=
  decodeFrom none raw

/-- The line boundaries of `str.splitlines`. -/
def isLineBreak (c : Char) : Bool :=
  [0xa, 0xb, 0xc, 0xd, 0x1c, 0x1d, 0x1e, 0x85, 0x2028, 0x2029].contains c.toNat

/-- The lines from inside a text: the line read so far, and whether a carriage
return has just ended one. -/
def splitFrom (line : List Char) (returned : Bool) : List Char → List (List Char)
  | [] => if line = [] then [] else [line]
  | c :: rest =>
      if c = '\n' && returned then splitFrom [] false rest
      else if isLineBreak c then line :: splitFrom [] (c = '\r') rest
      else splitFrom (line ++ [c]) false rest

/-- `text.splitlines()`. -/
def splitlines (text : List Char) : List (List Char) :=
  splitFrom [] false text

/-- `text.splitlines(keepends=True)`, behind the line read so far. -/
def keptFrom (line : List Char) : List Char → List (List Char)
  | [] => if line = [] then [] else [line]
  | '\r' :: '\n' :: rest => (line ++ ['\r', '\n']) :: keptFrom [] rest
  | c :: rest => if isLineBreak c then (line ++ [c]) :: keptFrom [] rest else keptFrom (line ++ [c]) rest

/-- A newline is never inside a sequence, so decoding splits behind it. -/
theorem decodeFrom_newline (state : Option Pending) (a b : List UInt8) :
    decodeFrom state (a ++ 10 :: b) =
      (decodeFrom state (a ++ [10])).bind fun x => (decode b).map (x ++ ·) := by
  have hMap : ∀ (c : Char) (x y : Option (List Char)),
      (x.bind fun x => y.map (x ++ ·)).map (c :: ·) =
        (x.map (c :: ·)).bind fun x => y.map (x ++ ·) := by
    intro c x y
    cases x <;> cases y <;> rfl
  induction a generalizing state with
  | nil =>
      cases state with
      | none => cases h : decodeFrom none b <;> simp [decodeFrom, decode, h]
      | some pending => simp [decodeFrom, isTail]
  | cons c a ih =>
      cases state with
      | none =>
          by_cases hAscii : c < 0x80
          · simp only [List.cons_append, decodeFrom, hAscii, if_true]
            rw [ih none, hMap]
          · simp only [List.cons_append, decodeFrom, hAscii, if_false]
            cases lead c with
            | none => rfl
            | some pending => exact ih (some pending)
      | some pending =>
          simp only [List.cons_append, decodeFrom]
          split
          · split
            · rw [ih none, hMap]
            · exact ih _
          · rfl

theorem decode_newline (a b : List UInt8) :
    decode (a ++ 10 :: b) = (decode (a ++ [10])).bind fun x => (decode b).map (x ++ ·) :=
  decodeFrom_newline none a b

/-- A decoded text ends in a newline where its bytes do. -/
theorem decode_ends {a : List UInt8} {text : List Char} (h : decode (a ++ [10]) = some text) :
    ∃ first, text = first ++ ['\n'] := by
  have hFrom : ∀ (a : List UInt8) (state : Option Pending) (text : List Char),
      decodeFrom state (a ++ [10]) = some text → ∃ first, text = first ++ ['\n'] := by
    intro a
    induction a with
    | nil =>
        intro state text h
        cases state with
        | none => exact ⟨[], by simpa [decodeFrom] using h.symm⟩
        | some pending => simp [decodeFrom, isTail] at h
    | cons c a ih =>
        intro state text h
        have hCons : ∀ {x : Option (List Char)} {d : Char}, x.map (d :: ·) = some text →
            (∀ t, x = some t → ∃ first, t = first ++ ['\n']) → ∃ first, text = first ++ ['\n'] := by
          intro x d hx hAll
          obtain ⟨t, rfl, rfl⟩ := Option.map_eq_some_iff.mp hx
          obtain ⟨first, rfl⟩ := hAll t rfl
          exact ⟨d :: first, rfl⟩
        cases state with
        | none =>
            by_cases hAscii : c < 0x80
            · simp only [List.cons_append, decodeFrom, hAscii, if_true] at h
              exact hCons h (ih none)
            · simp only [List.cons_append, decodeFrom, hAscii, if_false] at h
              cases hLead : lead c with
              | none =>
                  rw [hLead] at h
                  cases h
              | some pending =>
                  rw [hLead] at h
                  exact ih _ text h
        | some pending =>
            simp only [List.cons_append, decodeFrom] at h
            split at h
            · split at h
              · exact hCons h (ih none)
              · exact ih _ text h
            · cases h
  exact hFrom a none text h

theorem splitFrom_newline (line : List Char) (returned : Bool) (a b : List Char) :
    splitFrom line returned (a ++ '\n' :: b) =
      splitFrom line returned (a ++ ['\n']) ++ splitlines b := by
  induction a generalizing line returned with
  | nil =>
      have hBreak : isLineBreak '\n' = true := by decide
      cases returned <;> simp [splitFrom, splitlines, hBreak]
  | cons c a ih =>
      simp only [List.cons_append, splitFrom]
      split
      · exact ih [] false
      · split
        · rw [ih [], List.cons_append]
        · exact ih _ false

theorem splitlines_newline (a b : List Char) :
    splitlines (a ++ '\n' :: b) = splitlines (a ++ ['\n']) ++ splitlines b :=
  splitFrom_newline [] false a b

end Brnrd.Python

/-! The size of a text in bytes, and its beginning that a number of bytes holds. -/
namespace Brnrd.Python

/-- `len(text.encode())`. -/
def size (text : List Char) : Nat :=
  (text.map Char.utf8Size).sum

@[simp] theorem size_nil : size [] = 0 := rfl

@[simp] theorem size_cons (c : Char) (text : List Char) : size (c :: text) = c.utf8Size + size text := by
  simp [size]

@[simp] theorem size_append (a b : List Char) : size (a ++ b) = size a + size b := by
  simp [size]

/-- `text.encode()[:room].decode("utf-8", "ignore")`: a character that is cut is left
out. -/
def takeBytes (room : Nat) : List Char → List Char
  | [] => []
  | c :: rest => if c.utf8Size ≤ room then c :: takeBytes (room - c.utf8Size) rest else []

theorem size_takeBytes (room : Nat) (text : List Char) : size (takeBytes room text) ≤ room := by
  induction text generalizing room with
  | nil => exact Nat.zero_le _
  | cons c rest ih =>
      unfold takeBytes
      split
      · rename_i hFits
        have hRest := ih (room - c.utf8Size)
        rw [size_cons]
        omega
      · exact Nat.zero_le _

theorem takeBytes_prefix (room : Nat) (text : List Char) : takeBytes room text <+: text := by
  induction text generalizing room with
  | nil => exact List.prefix_refl _
  | cons c rest ih =>
      unfold takeBytes
      split
      · exact List.cons_prefix_cons.mpr ⟨rfl, ih _⟩
      · exact List.nil_prefix

theorem size_prefix_le {a b : List Char} (h : a <+: b) : size a ≤ size b := by
  obtain ⟨rest, rfl⟩ := h
  rw [size_append]
  omega

/-- Decimal digits take a byte each, and a smaller number has no more of them. -/
theorem size_digits (n : Nat) : size (toString n).toList = (Nat.toDigits 10 n).length := by
  have hAll : ∀ text : List Char, (∀ c ∈ text, c.isDigit = true) → size text = text.length := by
    intro text h
    induction text with
    | nil => rfl
    | cons c rest ih =>
        have hDigit := Char.isDigit_iff_toNat.mp (h c List.mem_cons_self)
        have hOne : c.utf8Size = 1 := by
          have hLow : c.val.toNat ≤ 0x39 := hDigit.2
          have hBound : (127 : UInt32).toNat = 127 := rfl
          rw [Char.utf8Size_eq_one_iff, UInt32.le_iff_toNat_le]
          omega
        rw [size_cons, hOne, ih fun d hd => h d (List.mem_cons_of_mem _ hd), List.length_cons, Nat.add_comm]
  rw [Nat.toString_eq_repr, Nat.toList_repr]
  exact hAll _ fun c hc => Nat.isDigit_of_mem_toDigits (by decide) (by decide) hc

theorem size_digits_mono {m n : Nat} (h : m ≤ n) : size (toString m).toList ≤ size (toString n).toList := by
  have hTen : 1 < 10 := by decide
  rw [size_digits, size_digits, Nat.length_toDigits_le_iff hTen Nat.length_toDigits_pos]
  exact Nat.lt_of_le_of_lt h ((Nat.length_toDigits_le_iff hTen Nat.length_toDigits_pos).mp (Nat.le_refl _))

/-- `text.rpartition(mark)[2]`, where the mark is in the text. -/
def behindLast (mark : List Char) : List Char → Option (List Char)
  | [] => none
  | c :: text => match behindLast mark text with
      | some rest => some rest
      | none => if mark.isPrefixOf (c :: text) then some ((c :: text).drop mark.length) else none

end Brnrd.Python
