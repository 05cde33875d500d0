import CommandScript.Text.CaseTable

/-!
# Letter case

Upper and lower case of text, for every script that has case. A character may become several. A
capital sigma is lowered to its final form at the end of a word: after a letter with case, and not
before one, other marks passed over.
-/

namespace CommandScript.Text

def CaseRun.image? (r : CaseRun) (n : Nat) : Option Nat :=
  if r.first ≤ n && n < r.first + r.count then some (r.image + (n - r.first)) else none

def CaseRun.flip (r : CaseRun) : CaseRun := ⟨r.image, r.first, r.count⟩

/-- The other character of a pair that takes turns from `first` on, `side` being 0 for the upper
case and 1 for the lower. -/
def turned? (side n : Nat) : Nat × Nat → Option Nat
  | (first, count) =>
    if first + side ≤ n && n < first + 2 * count && (n - first) % 2 == side then
      some (n + 1 - 2 * side)
    else none

def upper? (n : Nat) : Option Nat :=
  caseRuns.findSome? (·.flip.image? n) <|> (casePairs.map Prod.swap).lookup n <|>
    caseTurns.findSome? (turned? 1 n) <|> upperPairs.lookup n

def lower? (n : Nat) : Option Nat :=
  caseRuns.findSome? (·.image? n) <|> casePairs.lookup n <|> caseTurns.findSome? (turned? 0 n) <|>
    lowerRuns.findSome? (·.image? n)

def upperExpansion? (n : Nat) : Option (List Nat) :=
  upperExpansions.lookup n <|> (iotaRuns.findSome? (·.image? n)).map ([·, 0x399])

/-- Maps a character by its expansion, else to one character. -/
def mapCase (expansion? : Nat → Option (List Nat)) (one? : Nat → Option Nat) (c : Char) :
    List Char :=
  match expansion? c.toNat with
  | some ns => ns.map Char.ofNat
  | none => [((one? c.toNat).map Char.ofNat).getD c]

def upperChar (c : Char) : List Char :=
  if c.toNat < 128 then [c.toUpper] else mapCase upperExpansion? upper? c

def lowerChar (c : Char) : List Char :=
  if c.toNat < 128 then [c.toLower] else mapCase (fun n => lowerExpansions.lookup n) lower? c

def isIn (table : List (Nat × Nat) × List Nat) (c : Char) : Bool :=
  table.1.any (fun (first, count) => first ≤ c.toNat && c.toNat < first + count) ||
    table.2.contains c.toNat

/-- Whether the first character that is not passed over is a letter with case. -/
def meetsCased (cs : List Char) : Bool :=
  (cs.find? fun c => !isIn ignorable c).any (isIn cased)

/-- Lowers text, `before` being what stands before it, last character first. -/
def lowerFrom (before : List Char) : List Char → List Char
  | [] => []
  | c :: rest =>
    let lowered :=
      if c = 'Σ' then [if meetsCased before && !meetsCased rest then 'ς' else 'σ']
      else lowerChar c
    lowered ++ lowerFrom (c :: before) rest

def toLower (s : String) : String := String.ofList (lowerFrom [] s.toList)

def toUpper (s : String) : String := String.ofList (s.toList.flatMap upperChar)

end CommandScript.Text
