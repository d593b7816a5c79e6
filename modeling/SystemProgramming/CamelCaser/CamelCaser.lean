import SystemProgramming.Foundation.Ctype

/-!
# Camel case, from `extreme_edge_cases/camelCaser.c`

`camel_caser` cuts its input at the punctuation characters. In each piece it looks for words
with one loop over the characters: a blank ends a word, and so does the end of the piece.
Afterwards the blanks are removed.

A string is the list of its characters before the `NUL`. `none` stands for a loop that has not
ended.

## Main definitions

* `splitStr`: the pieces
* `camelCaseWord`, `camelCaseStr`, `removeWhitespacesStr`: the words of a piece
* `camelCaser`
-/

namespace SystemProgramming.CamelCaser

open Ctype

/-- The outer loop of `split_str`, from index `i` on. -/
def splitLoop (inputStr : List UInt8) :
    Nat → Nat → List (List UInt8) → Option (List (List UInt8))
  | 0, _, _ => none
  | rounds + 1, i, splitted =>
    if i < inputStr.length then
      match (inputStr.drop i).findIdx? isPunct with
      | some nbytes =>
        splitLoop inputStr rounds (i + nbytes + 1) (splitted ++ [(inputStr.drop i).take nbytes])
      | none => splitLoop inputStr rounds (inputStr.length + 1) splitted
    else some splitted

/-- `split_str`, without the `NULL` at the end of the table. -/
def splitStr (inputStr : List UInt8) : Option (List (List UInt8)) :=
  splitLoop inputStr (inputStr.length + 1) 0 []

/-- The loop of `camel_case_word`. -/
def caseLetters (firstWord : Bool) : Bool → List UInt8 → List UInt8
  | _, [] => []
  | firstLetter, c :: walk =>
    if isAlpha c then
      if !firstLetter then
        (if firstWord then toLower c else toUpper c) :: caseLetters firstWord true walk
      else toLower c :: caseLetters firstWord firstLetter walk
    else c :: caseLetters firstWord firstLetter walk

/-- `camel_case_word`. -/
def camelCaseWord (word : List UInt8) (firstWord : Bool) : List UInt8 :=
  caseLetters firstWord false word

/-- The inner loop of `camel_case_str` for a word that begins at `i`, from index `j` on: the
string, `first_word_seen` and `j` at the end of the loop. -/
def scanWord (strLen i : Nat) : Nat → List UInt8 → Bool → Nat → List UInt8 × Bool × Nat
  | 0, str, firstWordSeen, j => (str, firstWordSeen, j)
  | rounds + 1, str, firstWordSeen, j =>
    let c := str.getD j 0
    if !isSpace c && !firstWordSeen then scanWord strLen i rounds str true (j + 1)
    else if isSpace c && firstWordSeen then
      -- the blank, whichever it is, becomes `' '`
      (str.take i ++ camelCaseWord ((str.take j).drop i) (i == 0) ++ 32 :: str.drop (j + 1),
        firstWordSeen, j)
    else if j = strLen - 1 then
      (str.take i ++ camelCaseWord (str.drop i) (i == 0), firstWordSeen, j)
    else scanWord strLen i rounds str firstWordSeen (j + 1)

/-- The outer loop of `camel_case_str`. -/
def scanWords (strLen : Nat) : Nat → List UInt8 → Bool → Nat → Option (List UInt8)
  | 0, _, _, _ => none
  | rounds + 1, str, firstWordSeen, i =>
    if i < strLen then
      let (str, firstWordSeen, j) := scanWord strLen i (strLen - i) str firstWordSeen i
      scanWords strLen rounds str firstWordSeen (j + 1)
    else some str

/-- `camel_case_str`. -/
def camelCaseStr (str : List UInt8) : Option (List UInt8) :=
  scanWords str.length (str.length + 1) str false 0

/-- `remove_whitespaces_str`. -/
def removeWhitespacesStr (str : List UInt8) : List UInt8 := str.filter fun c => !isSpace c

/-- `camel_caser` of a string that is not `NULL`. -/
def camelCaser (inputStr : List UInt8) : Option (List (List UInt8)) := do
  let splitted ← splitStr inputStr
  splitted.mapM fun walk => (camelCaseStr walk).map removeWhitespacesStr

end SystemProgramming.CamelCaser
