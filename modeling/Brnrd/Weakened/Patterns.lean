import Brnrd.Port.Boundary

/-! The expressions that tell a test file, an assertion, a skip and the definition of a
test. -/
namespace Brnrd.Weakened

open Python

abbrev Text := List Char

/-- The rest behind the first of some words that a text starts with. -/
def behind (words : List String) (text : Text) : Option Text :=
  words.findSome? fun word => if word.toList.isPrefixOf text then some (text.drop word.length) else none

variable (alphabet : Alphabet)

/-- `\b` between a word character and the rest. -/
def wordEnds (rest : Text) : Bool :=
  !rest.head?.any (isWord alphabet)

/-- `expression.search(text)`, for one that is held against each place and what stands
right before it. -/
def searchFrom (here : Option Char → Text → Bool) : Option Char → Text → Bool
  | before, [] => here before []
  | before, c :: text => here before (c :: text) || searchFrom here (some c) text

/-- `_ASSERT.match(line)`. -/
def isAssert (line : Text) : Bool :=
  let line := line.dropWhile isSpace
  (behind ["assert"] line).any (wordEnds alphabet) ||
    (behind ["self.assert"] line).any (fun rest => (rest.dropWhile (isWord alphabet)).head? = some '(') ||
    (behind ["expect(", "pytest.raises("] line).isSome || (behind ["with pytest.raises"] line).any (wordEnds alphabet)

/-- What `_SKIP` matches at a place. -/
def skipsAt (before : Option Char) (rest : Text) : Bool :=
  let fresh := !before.any (isWord alphabet)
  (behind ["@pytest.mark.skip", "@pytest.mark.xfail"] rest).any (wordEnds alphabet) ||
    (behind ["@pytest.mark.skipif"] rest).any (wordEnds alphabet) ||
    fresh && (behind ["pytest.skip(", "pytest.xfail("] rest).isSome ||
    (behind ["@unittest.skip"] rest).isSome ||
    fresh && (behind ["it.skip(", "it.todo(", "test.skip(", "test.todo(", "describe.skip(", "describe.todo("] rest).isSome

/-- `_SKIP.search(line)`. -/
def isSkip (line : Text) : Bool :=
  searchFrom (skipsAt alphabet) none line || (behind ["xit(", "xdescribe("] (line.dropWhile isSpace)).isSome

/-- `_TEST_DEF.match(line)` and the name that it finds. -/
def testDef (line : Text) : Option Text :=
  let line := line.dropWhile isSpace
  let spaced := fun rest : Text => if rest.head?.any isSpace then some (rest.dropWhile isSpace) else none
  let definition := ((behind ["async"] line).bind spaced).getD line
  let named := do
    let rest ← (behind ["def"] definition).bind spaced
    let tail ← behind ["test_"] rest
    if tail.head?.any (isWord alphabet) then some ("test_".toList ++ tail.takeWhile (isWord alphabet)) else none
  let quoted := do
    let rest ← behind ["it(", "test("] line
    match rest.dropWhile isSpace with
    | quote :: rest =>
        let name := rest.takeWhile fun c => c ≠ '\'' && c ≠ '"'
        if (quote = '\'' || quote = '"') && name ≠ [] then some name else none
    | [] => none
  named <|> quoted

/-- What `_LOOSE` matches at a place. -/
def loosensAt (before : Option Char) (rest : Text) : Bool :=
  let fresh := !before.any (isWord alphabet)
  before.any isSpace && (behind ["in"] rest).any (fun rest => rest.head?.any isSpace) ||
    (behind [">=", "<=", ".startswith(", ".endswith(", "is not None", "toBeTruthy", "toContain(", "toMatch("] rest).isSome ||
    fresh && (behind ["approx(", "any("] rest).isSome

/-- `_LOOSE.search(line)`. -/
def isLoose (line : Text) : Bool :=
  searchFrom (loosensAt alphabet) none line ||
    (behind ["assert"] (line.dropWhile isSpace)).any fun rest =>
      let word := rest.dropWhile isSpace
      let rest' := (word.dropWhile (isWord alphabet)).dropWhile isSpace
      rest.head?.any isSpace && word.head?.any (isWord alphabet) && (rest' = [] || rest'.head? = some '#')

/-- `_clip(text)`. -/
def clip (text : Text) : Text :=
  let text := ([' '].intercalate (Port.wordsFrom [] text)).map fun c => if c = '`' then '\'' else c
  if text.length ≤ 60 then text else text.take 59 ++ ['…']

end Brnrd.Weakened
