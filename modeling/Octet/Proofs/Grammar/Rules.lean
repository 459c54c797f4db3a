import Octet.Token.Basic
import Octet.Tree.Program

/-!
The grammar as rules. They say which rows of tokens make which trees, and
nothing of how a row is read: no cursor moves, nothing is looked at ahead of
time, and a rule may start with the very thing that it defines, as the rule for
comparisons does. Trees carry positions, so the rules say where these come
from: an operator gives its position to its node, and every other node has the
position of its first token.

Parentheses and unary plus make a row longer and leave its tree as it is.
-/

namespace Octet.Grammar

/-! ### Numerals -/

/-- A row of decimal digits spells a number. -/
inductive SpellsNumber : List Char → Nat → Prop where
  | digit {d : Char} : d.isDigit → SpellsNumber [d] (d.toNat - '0'.toNat)
  | snoc {ds : List Char} {n : Nat} {d : Char} : SpellsNumber ds n → d.isDigit →
      SpellsNumber (ds ++ [d]) (10 * n + (d.toNat - '0'.toNat))

/-- A text spells a byte, in digits that a plus sign may precede. -/
inductive SpellsByte (s : String) (b : UInt8) : Prop where
  | plain : SpellsNumber s.toList b.toNat → SpellsByte s b
  | signed {ds : List Char} : s.toList = '+' :: ds → SpellsNumber ds b.toNat → SpellsByte s b

/-! ### Expressions -/

inductive DerivesComparison : Token → Comparison → Prop where
  | equal {t : Token} : t.kind = .equal → DerivesComparison t .equal
  | notEqual {t : Token} : t.kind = .notEqual → DerivesComparison t .notEqual

mutual

/-- Comparisons, which group to the left. -/
inductive DerivesExpr : List Token → Expr → Prop where
  | single {ts e} : DerivesAddition ts e → DerivesExpr ts e
  | compare {ts us l r op c} : DerivesExpr ts l → DerivesComparison op c →
      DerivesAddition us r → DerivesExpr (ts ++ op :: us) (.compare c l r op.position)

/-- Sums, which group to the right. -/
inductive DerivesAddition : List Token → Expr → Prop where
  | single {ts e} : DerivesFactor ts e → DerivesAddition ts e
  | add {ts us l r} {op : Token} : DerivesFactor ts l → op.kind = .plus →
      DerivesAddition us r → DerivesAddition (ts ++ op :: us) (.add l r op.position)

/-- Everything that binds tighter than an operator between two operands. -/
inductive DerivesFactor : List Token → Expr → Prop where
  | unaryPlus {ts e} {op : Token} : op.kind = .plus → DerivesFactor ts e →
      DerivesFactor (op :: ts) e
  | negate {ts e} {op : Token} : op.kind = .minus → DerivesFactor ts e →
      DerivesFactor (op :: ts) (.negate e op.position)
  | group {ts e} {lp rp : Token} : lp.kind = .leftParen → DerivesExpr ts e →
      rp.kind = .rightParen → DerivesFactor (lp :: (ts ++ [rp])) e
  | number {n} {t : Token} : t.kind = .number → SpellsByte t.value n →
      DerivesFactor [t] (.number n t.position)
  | true {t : Token} : t.kind = .kwTrue → DerivesFactor [t] (.boolean true t.position)
  | false {t : Token} : t.kind = .kwFalse → DerivesFactor [t] (.boolean false t.position)
  | var {x : Token} : x.kind = .identifier → DerivesFactor [x] (.var x.value x.position)
  | callNone {f lp rp : Token} : f.kind = .identifier → lp.kind = .leftParen →
      rp.kind = .rightParen → DerivesFactor [f, lp, rp] (.call f.value [] f.position)
  | call {ts args} {f lp rp : Token} : f.kind = .identifier → lp.kind = .leftParen →
      DerivesArguments ts args → rp.kind = .rightParen →
      DerivesFactor (f :: lp :: (ts ++ [rp])) (.call f.value args f.position)

/-- Arguments with commas between them, at least one. -/
inductive DerivesArguments : List Token → List Expr → Prop where
  | single {ts e} : DerivesExpr ts e → DerivesArguments ts [e]
  | cons {ts us e args} {comma : Token} : DerivesExpr ts e → comma.kind = .comma →
      DerivesArguments us args → DerivesArguments (ts ++ comma :: us) (e :: args)

end

/-! ### Statements -/

/-- Types, which are one token each. -/
inductive DerivesType : Token → Ty → Prop where
  | void {t : Token} : t.kind = .kwVoid → DerivesType t .void
  | bool {t : Token} : t.kind = .kwBool → DerivesType t .bool
  | i8 {t : Token} : t.kind = .kwI8 → DerivesType t .i8
  | u8 {t : Token} : t.kind = .kwU8 → DerivesType t .u8
  | named {t : Token} : t.kind = .identifier → DerivesType t (.named t.value)

mutual

/-- Statements. All but a condition end with their line. -/
inductive DerivesStmt : List Token → Stmt → Prop where
  | ifThen {ts us condition body} {start colon nl : Token} : start.kind = .kwIf →
      DerivesExpr ts condition → colon.kind = .colon → nl.kind = .newline →
      DerivesBlock us body →
      DerivesStmt (start :: (ts ++ colon :: nl :: us))
        (.ifThen condition body.toStmt start.position)
  | print {ts value} {start lp rp nl : Token} : start.kind = .kwPrint → lp.kind = .leftParen →
      DerivesExpr ts value → rp.kind = .rightParen → nl.kind = .newline →
      DerivesStmt (start :: lp :: (ts ++ [rp, nl])) (.print value start.position)
  | declare {ts type value} {start x colon t assign nl : Token} : start.kind = .kwLet →
      x.kind = .identifier → colon.kind = .colon → DerivesType t type →
      assign.kind = .assign → DerivesExpr ts value → nl.kind = .newline →
      DerivesStmt (start :: x :: colon :: t :: assign :: (ts ++ [nl]))
        (.declare x.value type value start.position)
  | assign {ts value} {x assign nl : Token} : x.kind = .identifier → assign.kind = .assign →
      DerivesExpr ts value → nl.kind = .newline →
      DerivesStmt (x :: assign :: (ts ++ [nl])) (.assign x.value value x.position)
  | ret {ts value} {start nl : Token} : start.kind = .kwReturn → DerivesExpr ts value →
      nl.kind = .newline → DerivesStmt (start :: (ts ++ [nl])) (.ret value start.position)
  | evaluate {ts value} {nl : Token} : DerivesExpr ts value → nl.kind = .newline →
      DerivesStmt (ts ++ [nl]) (.evaluate value)

inductive DerivesStmts : List Token → List Stmt → Prop where
  | nil : DerivesStmts [] []
  | cons {ts us s body} : DerivesStmt ts s → DerivesStmts us body →
      DerivesStmts (ts ++ us) (s :: body)

/-- Statements between two steps of indentation. -/
inductive DerivesBlock : List Token → Block → Prop where
  | indented {ts body} {start stop : Token} : start.kind = .indent → DerivesStmts ts body →
      stop.kind = .dedent → DerivesBlock (start :: (ts ++ [stop])) ⟨body, start.position⟩

end

/-! ### Functions and programs -/

inductive DerivesParameters : List Token → List Parameter → Prop where
  | single {type} {x colon t : Token} : x.kind = .identifier → colon.kind = .colon →
      DerivesType t type → DerivesParameters [x, colon, t] [⟨x.value, type, x.position⟩]
  | cons {ts ps type} {x colon t comma : Token} : x.kind = .identifier → colon.kind = .colon →
      DerivesType t type → comma.kind = .comma → DerivesParameters ts ps →
      DerivesParameters (x :: colon :: t :: comma :: ts) (⟨x.value, type, x.position⟩ :: ps)

inductive DerivesParameterList : List Token → List Parameter → Prop where
  | none : DerivesParameterList [] []
  | some {ts ps} : DerivesParameters ts ps → DerivesParameterList ts ps

inductive DerivesFunction : List Token → Function → Prop where
  | define {ts us ps returns body} {start name lp rp arrow t colon nl : Token} :
      start.kind = .kwDef → name.kind = .identifier → lp.kind = .leftParen →
      DerivesParameterList ts ps → rp.kind = .rightParen → arrow.kind = .arrow →
      DerivesType t returns → colon.kind = .colon → nl.kind = .newline → DerivesBlock us body →
      DerivesFunction (start :: name :: lp :: (ts ++ rp :: arrow :: t :: colon :: nl :: us))
        ⟨name.value, ps, returns, body, start.position⟩

inductive DerivesFunctions : List Token → List Function → Prop where
  | nil : DerivesFunctions [] []
  | cons {ts us f fs} : DerivesFunction ts f → DerivesFunctions us fs →
      DerivesFunctions (ts ++ us) (f :: fs)

/-- Programs. The end of a line may stand in front of the first function, and
the token that ends the text stands behind the last one. -/
inductive DerivesProgram : List Token → Program → Prop where
  | plain {ts fs p} {stop : Token} : DerivesFunctions ts fs → stop.kind = .eof →
      (ts ++ [stop]).head?.map Token.position = some p →
      DerivesProgram (ts ++ [stop]) ⟨fs, p⟩
  | behindLineEnd {ts fs} {nl stop : Token} : nl.kind = .newline → DerivesFunctions ts fs →
      stop.kind = .eof → DerivesProgram (nl :: (ts ++ [stop])) ⟨fs, nl.position⟩

/-- The tokens with one that ends the text behind them. If they do not end in
such a token, one is supplied where the last of them stands. -/
def withEnd (tokens : List Token) : List Token :=
  match tokens.getLast? with
  | none => [Token.textEnd Position.start]
  | some t => if t.kind = .eof then tokens else tokens ++ [Token.textEnd t.position]

end Octet.Grammar
