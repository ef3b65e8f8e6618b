import ProofBook.Lib.Binary64
import ProofBook.Lib.Checked
import ProofBook.State

/-!
# The market catalogue

Compound markets as the keeper and the SDK write them: legs, labelled outcomes that
are conjunctions of predicates over the legs, and the grid of two conditions with
their complements. Periods and thresholds are double-precision numbers. Stat keys are
natural numbers; no other number has a family.
-/
namespace ProofBook.Catalogue
open Addresses OracleWire Checked Binary64

structure Leg where
  key : ℕ
  period : Number
deriving Repr, DecidableEq

/-- A condition over some legs and its complement, for an offset into the legs. -/
structure Condition (P : Type) where
  label : String
  negLabel : String
  legs : List Leg
  pred : ℕ → P
  neg : ℕ → P

structure Outcome (P : Type) where
  label : String
  predicates : List P
deriving Repr, DecidableEq

variable {P : Type}

/-! ## Stat families -/

def statFamily : ℕ → Option String
  | 1 | 2 => some "goals"
  | 3 | 4 => some "yellows"
  | 5 | 6 => some "reds"
  | 7 | 8 => some "corners"
  | _ => none

def familyOf (key : ℕ) : Except String String :=
  let base := key % 1000
  let period := key / 1000
  match statFamily base with
  | none => .error (s!"stat key {key} is not provable. TxLINE's only provable base keys are " ++
      "1/2 goals, 3/4 yellows, 5/6 reds, 7/8 corners (period-scoped as " ++
      "period*1000 + base).")
  | some fam => .ok (if period ≠ 0 then s!"p{period}_{fam}" else fam)

/-- The families of a condition's legs, each at its first occurrence. -/
def Condition.families (c : Condition P) : Except String (List String) := do
  let families ← c.legs.mapM fun leg => familyOf leg.key
  pure families.eraseDups

/-! ## The grid -/

def gridOutcomes (a b : Condition P) : List (Outcome P) :=
  let oA := 0
  let oB := a.legs.length
  [⟨s!"{a.label} & {b.label}", [a.pred oA, b.pred oB]⟩,
    ⟨s!"{a.label} & {b.negLabel}", [a.pred oA, b.neg oB]⟩,
    ⟨s!"{a.negLabel} & {b.label}", [a.neg oA, b.pred oB]⟩,
    ⟨s!"{a.negLabel} & {b.negLabel}", [a.neg oA, b.neg oB]⟩]

/-- The legs and outcomes of two conditions, unless their families overlap or their
legs are too many. -/
def grid (overlapText : String → String) (tooManyText : ℕ → String) (a b : Condition P) :
    Except String (List Leg × List (Outcome P)) := do
  let famA ← a.families
  let famB ← b.families
  let overlap := famA.filter fun f => famB.contains f
  require (overlap = []) (overlapText ("/".intercalate overlap))
  let legs := a.legs ++ b.legs
  require (legs.length ≤ maxLegs) (tooManyText legs.length)
  pure (legs, gridOutcomes a b)

/-! ## Conditions -/

/-- A line, and how it prints. -/
structure Line where
  value : Number
  text : String
deriving Repr, DecidableEq

/-- How a predicate over two legs is written. -/
abbrev Binary (P : Type) := ℕ → ℕ → BinaryExpression → Comparison → Number → P

/-- The legs of a pair of keys, at the period of a finalised game. -/
def finalLegs (keys : ℕ × ℕ) : List Leg := [⟨keys.1, .int 100⟩, ⟨keys.2, .int 100⟩]

def winCondition (binary : Binary P) : Condition P where
  label := "Home win"
  negLabel := "No home win"
  legs := finalLegs (1, 2)
  pred o := binary o (o + 1) .subtract .greaterThan (.int 0)
  neg o := binary o (o + 1) .subtract .lessThan (.int 1)

def overCondition (binary : Binary P) (keys : ℕ × ℕ) (noun : String) (line : Line) :
    Condition P where
  label := s!"Over {line.text} {noun}"
  negLabel := s!"Under {line.text} {noun}"
  legs := finalLegs keys
  pred o := binary o (o + 1) .add .greaterThan line.value.floor
  neg o := binary o (o + 1) .add .lessThan (line.value.floor.add (.int 1))

/-! ## The keeper -/

inductive LegPredicate
  | single (index : ℕ) (comparison : Comparison) (threshold : Number)
  | binary (indexA indexB : ℕ) (op : BinaryExpression) (comparison : Comparison)
      (threshold : Number)
deriving Repr, DecidableEq

structure MarketTypeDef where
  type : ℕ
  slug : String
  name : String
  blurb : String
  legs : List Leg
  outcomes : List (Outcome LegPredicate)
  parlay : Bool
deriving Repr, DecidableEq

def homeWin : Condition LegPredicate := winCondition .binary
def overGoals (line : Line) : Condition LegPredicate := overCondition .binary (1, 2) "goals" line
def overCorners (line : Line) : Condition LegPredicate :=
  overCondition .binary (7, 8) "corners" line
def overYellows (line : Line) : Condition LegPredicate := overCondition .binary (3, 4) "cards" line

/-- Comparison of numbers; with what is not a number all three are false. -/
def cmp (value : Number) (comparison : Comparison) (threshold : Number) : Bool :=
  match comparison with
  | .greaterThan => threshold.lt value
  | .lessThan => value.lt threshold
  | .equalTo => value.eq threshold

def parlayGrid (type : ℕ) (slug : String) (a b : Condition LegPredicate) :
    Except String MarketTypeDef := do
  let (legs, outcomes) ← grid
    (fun overlap => s!"illegal parlay \"{a.label} AND {b.label}\": both legs read the " ++
      s!"{overlap} stat family. TxLINE evaluates each proven stat " ++
      "exactly once (DuplicateStatCoverage 6070), so overlapping legs can " ++
      "never be proven together. Combine DISJOINT families instead.")
    (fun n => s!"illegal parlay \"{a.label} AND {b.label}\": {n} stat keys, " ++
      "but TxLINE's proof API accepts at most 5.") a b
  pure
    { type
      slug
      name := s!"{a.label} & {b.label}"
      blurb := s!"Both must land. Settled by proving all {legs.length} stats in ONE " ++
        "validate_stat_v3 multiproof."
      legs
      outcomes
      parlay := true }

def withPeriod (market : MarketTypeDef) (period : Number) : Except String MarketTypeDef :=
  let refusal (text : String) := s!"refusing to build {market.slug} with period={text}: a " ++
    "market whose spec does not match its proof can never settle"
  match period with
  | .nan => .error (refusal "NaN")
  | .inf false => .error (refusal "Infinity")
  | .inf true => .error (refusal "-Infinity")
  | .finite _ => .ok { market with legs := market.legs.map fun leg => { leg with period } }

def goalLegs : List Leg := finalLegs (1, 2)
def yellowLegs : List Leg := finalLegs (3, 4)
def cornerLegs : List Leg := finalLegs (7, 8)
/-- The half is in the key; the period stays that of the finalised game. -/
def halfTimeGoalLegs : List Leg := finalLegs (1001, 1002)

/-- The difference of the two legs against a threshold. -/
def margin (comparison : Comparison) (threshold : ℤ) : List LegPredicate :=
  [.binary 0 1 .subtract comparison (.int threshold)]

/-- The sum of the two legs against a threshold. -/
def total (comparison : Comparison) (threshold : ℤ) : List LegPredicate :=
  [.binary 0 1 .add comparison (.int threshold)]

/-- Each of the two legs against zero. -/
def scored (home away : Comparison) : List LegPredicate :=
  [.single 0 home (.int 0), .single 1 away (.int 0)]

def matchResult : MarketTypeDef where
  type := 28
  slug := "match_result"
  name := "Match Result"
  blurb := "Home, Draw or Away on the finalised score."
  legs := goalLegs
  outcomes := [⟨"Home", margin .greaterThan 0⟩, ⟨"Draw", margin .equalTo 0⟩,
    ⟨"Away", margin .lessThan 0⟩]
  parlay := false

def goalsOu25 : MarketTypeDef where
  type := 29
  slug := "goals_ou_25"
  name := "Total Goals O/U 2.5"
  blurb := "Both teams' goals added. Over 2.5 means 3 or more."
  legs := goalLegs
  outcomes := [⟨"Over 2.5", total .greaterThan 2⟩, ⟨"Under 2.5", total .lessThan 3⟩]
  parlay := false

def cornersOu95 : MarketTypeDef where
  type := 30
  slug := "corners_ou_95"
  name := "Total Corners O/U 9.5"
  blurb := "Corners are stat keys 7 and 8 — as provable as goals."
  legs := cornerLegs
  outcomes := [⟨"Over 9.5", total .greaterThan 9⟩, ⟨"Under 9.5", total .lessThan 10⟩]
  parlay := false

def cardsOu35 : MarketTypeDef where
  type := 31
  slug := "cards_ou_35"
  name := "Total Cards O/U 3.5"
  blurb := "Yellow cards only (keys 3/4). A Binary op combines exactly two stats, so " ++
    "yellows+reds cannot be summed."
  legs := yellowLegs
  outcomes := [⟨"Over 3.5", total .greaterThan 3⟩, ⟨"Under 3.5", total .lessThan 4⟩]
  parlay := false

def btts : MarketTypeDef where
  type := 32
  slug := "btts"
  name := "Both Teams To Score"
  blurb := "Split four ways: 'BTTS No' is an OR, which cannot be proven — this grid says the " ++
    "same thing with pure ANDs."
  legs := goalLegs
  outcomes := [⟨"Both scored", scored .greaterThan .greaterThan⟩,
    ⟨"Home only", scored .greaterThan .equalTo⟩, ⟨"Away only", scored .equalTo .greaterThan⟩,
    ⟨"Neither scored", scored .equalTo .equalTo⟩]
  parlay := false

def cleanSheet : MarketTypeDef where
  type := 33
  slug := "clean_sheet"
  name := "Clean Sheet"
  blurb := "Which side kept one — or both, or neither."
  legs := goalLegs
  outcomes := [⟨"Home clean sheet", scored .greaterThan .equalTo⟩,
    ⟨"Away clean sheet", scored .equalTo .greaterThan⟩,
    ⟨"Both (0-0)", scored .equalTo .equalTo⟩, ⟨"Neither", scored .greaterThan .greaterThan⟩]
  parlay := false

def htResult : MarketTypeDef where
  type := 34
  slug := "ht_result"
  name := "Half-Time Result"
  blurb := "Period-scoped keys 1001/1002 — the half-time score, proven."
  legs := halfTimeGoalLegs
  outcomes := [⟨"Home", margin .greaterThan 0⟩, ⟨"Draw", margin .equalTo 0⟩,
    ⟨"Away", margin .lessThan 0⟩]
  parlay := false

def winningMargin : MarketTypeDef where
  type := 35
  slug := "winning_margin"
  name := "Winning Margin"
  blurb := "Correct Score cannot be exhaustive (an 'any other score' bucket is not provable). " ++
    "Margin buckets tile every possible result."
  legs := goalLegs
  outcomes := [⟨"Home by 2+", margin .greaterThan 1⟩, ⟨"Home by 1", margin .equalTo 1⟩,
    ⟨"Draw", margin .equalTo 0⟩, ⟨"Away by 1", margin .equalTo (-1)⟩,
    ⟨"Away by 2+", margin .lessThan (-1)⟩]
  parlay := false

def line95 : Line := ⟨.finite (19 / 2), "9.5"⟩
def line35 : Line := ⟨.finite (7 / 2), "3.5"⟩
def line25 : Line := ⟨.finite (5 / 2), "2.5"⟩

/-- Built once, when the module is loaded. -/
def catalogue : Except String (List MarketTypeDef) := do
  let winCorners ← parlayGrid 36 "parlay_win_corners" homeWin (overCorners line95)
  let cornersCards ←
    parlayGrid 37 "parlay_corners_cards" (overCorners line95) (overYellows line35)
  let goalsCards ← parlayGrid 38 "parlay_goals_cards" (overGoals line25) (overYellows line35)
  let winCards ← parlayGrid 39 "parlay_win_cards" homeWin (overYellows line35)
  pure [matchResult, goalsOu25, cornersOu95, cardsOu35, btts, cleanSheet, htResult, winningMargin,
    winCorners, cornersCards, goalsCards, winCards]

/-! ## The SDK -/

structure TraderPredicate where
  threshold : Number
  comparison : Comparison
deriving Repr, DecidableEq

inductive StatPredicate
  | single (index : ℕ) (predicate : TraderPredicate)
  | binary (indexA indexB : ℕ) (op : BinaryExpression) (predicate : TraderPredicate)
deriving Repr, DecidableEq

structure CompoundMarket where
  legs : List Leg
  outcomes : List (Outcome StatPredicate)
deriving Repr, DecidableEq

/-- `binary` of the SDK. -/
def sdkBinary (indexA indexB : ℕ) (op : BinaryExpression) (comparison : Comparison)
    (threshold : Number) : StatPredicate :=
  .binary indexA indexB op ⟨threshold, comparison⟩

def sdkHomeWin : Condition StatPredicate := winCondition sdkBinary
def sdkOverGoals (line : Line) : Condition StatPredicate :=
  overCondition sdkBinary (1, 2) "goals" line
def sdkOverCorners (line : Line) : Condition StatPredicate :=
  overCondition sdkBinary (7, 8) "corners" line
def sdkOverCards (line : Line) : Condition StatPredicate :=
  overCondition sdkBinary (3, 4) "cards" line

def parlay (a b : Condition StatPredicate) : Except String CompoundMarket := do
  let (legs, outcomes) ← grid
    (fun clash => s!"Cannot combine \"{a.label}\" with \"{b.label}\": both read the " ++
      s!"{clash} stat family.\n\n" ++
      "TxLINE evaluates each proven stat EXACTLY ONCE (DuplicateStatCoverage, " ++
      "error 6070), so legs that share a stat can never be proven together. " ++
      "This is not an encoding problem — there is no encoding.\n\n" ++
      "Combine disjoint families instead, e.g. goals + corners, or corners + cards.")
    (fun n => s!"\"{a.label} AND {b.label}\" needs {n} stat keys, but TxLINE's " ++
      "proof API accepts at most 5.") a b
  pure { legs, outcomes }

end ProofBook.Catalogue
