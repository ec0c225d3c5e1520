import Ips.Peg
import Ips.RustPrelude

/-!
# Makefiles

The grammar of `userland/src/makefile.pest`, rule by rule, and the walk over
its pairs that collects the variables and includes of a makefile
(`userland/src/lib.rs`).  The rules `variable_set` and `variable_add` are
silent: they are matched, but leave no node behind.  The rules `variable` and
`include` and the field `variables` carry longer names here, as these words
are reserved.
-/

namespace Ips

open Peg

inductive VariableMode where
  | add
  | set
  deriving DecidableEq, Repr

structure MakefileVariable where
  key : Text := []
  values : List Text := []
  mode : VariableMode := .set
  deriving DecidableEq, Repr

structure Makefile where
  path : Path := {}
  variableMap : HashMap MakefileVariable := ∅
  includes : List Text := []
  deriving DecidableEq

inductive MakefileError where
  | parserError
  | cannotRead (file : Path)
  | cannotParse (file : Path) (reason : MakefileError)
  | setCurrentDir (dir : Path)
  | includeNotFound (incl : Text)
  deriving DecidableEq, Repr

namespace Makefile

inductive Rule where
  | WHITESPACE
  | commentString
  | commentCharacter
  | variableNameCharacter
  | variableName
  | variableValueCharacter
  | variableValue
  | variableSet
  | variableAdd
  | variableRule
  | targetCharacter
  | targetName
  | target
  | includeRule
  | defineKeyword
  | defineEndKeyword
  | defineValueCharacter
  | defineValue
  | define
  | makefile
  | EOI
  deriving DecidableEq, Repr

/-- The Unicode property `UPPERCASE` of the parser library. -/
structure UppercaseTable where
  contains : Char → Bool
  ascii : ∀ c : Char, c.toNat < 128 → contains c = ('A' ≤ c && c ≤ 'Z')

def asciiUppercase : UppercaseTable where
  contains := fun c => 'A' ≤ c && c ≤ 'Z'
  ascii := fun _ _ => rfl

namespace Grammar

def whitespace : Parser Rule := atomic (choice [str " ", str "\t"])

def commentCharacter : Parser Rule := seq [negPred newline, any]

def commentString : Parser Rule :=
  seq [str "#", rep commentCharacter, newline]

def variableNameCharacter (upper : UppercaseTable) : Parser Rule :=
  rule .variableNameCharacter (choice [
    charIf upper.contains, asciiDigit, str "_", str "."])

def variableName (upper : UppercaseTable) : Parser Rule :=
  atomicRule .variableName (rep (variableNameCharacter upper))

def variableValueCharacter : Parser Rule :=
  rule .variableValueCharacter (seq [negPred newline, any])

def variableValue : Parser Rule :=
  atomicRule .variableValue (rep variableValueCharacter)

def variableSet : Parser Rule := str "="

def variableAdd : Parser Rule := str "+="

def variableRule (upper : UppercaseTable) : Parser Rule :=
  rule .variableRule (seq [
    variableName upper, choice [variableSet, variableAdd], opt variableValue])

def targetCharacter : Parser Rule :=
  rule .targetCharacter (seq [negPred (str ":"), any])

def targetName : Parser Rule := rule .targetName (repOnce targetCharacter)

def target : Parser Rule :=
  rule .target (seq [targetName, str ":", variableValue])

def includeRule : Parser Rule :=
  rule .includeRule (seq [str "include", variableValue])

def defineKeyword : Parser Rule := str "define"

def defineEndKeyword : Parser Rule := seq [newline, str "endef"]

def defineValueCharacter : Parser Rule :=
  rule .defineValueCharacter (seq [negPred defineEndKeyword, any])

def defineValue : Parser Rule :=
  atomicRule .defineValue (rep defineValueCharacter)

def define (upper : UppercaseTable) : Parser Rule :=
  rule .define (seq [
    defineKeyword, variableName upper, variableSet, newline, defineValue,
    defineEndKeyword])

def eoi : Parser Rule := rule .EOI endOfInput

def makefile (upper : UppercaseTable) : Parser Rule :=
  rule .makefile (seq [
    soi,
    repOnce (choice [
      newline, commentString, define upper, variableRule upper,
      includeRule, target]),
    eoi])

end Grammar

/-- What is skipped between the elements of the non-atomic rules. -/
def skip : List Char → List Char := skipWhitespace Grammar.whitespace

def new : Makefile := {}

def insertVariable (m : Makefile) (var : Text × MakefileVariable) : Makefile :=
  { m with variableMap := m.variableMap.insert var.1 var.2 }

theorem lookup_insertVariable (m : Makefile) (key name : Text)
    (var : MakefileVariable) :
    (insertVariable m (key, var)).variableMap.lookup name =
      if key = name then some var else m.variableMap.lookup name := by
  unfold insertVariable
  dsimp only
  by_cases h : key = name
  · rw [if_pos h, h, Finmap.lookup_insert]
  · rw [if_neg h, Finmap.lookup_insert_of_ne _ (fun heq => h heq.symm)]

def readVariablePair (m : Makefile) (var : Text × MakefileVariable)
    (p : Pair Rule) : Outcome MakefileError (Text × MakefileVariable) :=
  match p.asRule with
  | .variableName => .ok (p.asStr, var.2)
  | .variableSet => .ok (var.1, { var.2 with mode := .set })
  | .variableAdd => .ok (var.1, { var.2 with mode := .add })
  | .variableValue =>
      match var.2.mode with
      | .add =>
          let var' := (m.variableMap.lookup var.1).getD var.2
          .ok (var.1, { var' with values := var'.values ++ [p.asStr] })
      | .set => .ok (var.1, { var.2 with values := var.2.values ++ [p.asStr] })
  | _ => .panic "unexpected rule inside makefile rule expected variable_name, variable_set, variable_add, variable_value"

def parseVariable (m : Makefile) (pairs : List (Pair Rule)) :
    Outcome MakefileError Makefile := do
  let var ← Outcome.fold (readVariablePair m) ([], {}) pairs
  return insertVariable m var

def readDefinePair (var : Text × MakefileVariable) (p : Pair Rule) :
    Outcome MakefileError (Text × MakefileVariable) :=
  match p.asRule with
  | .variableName => .ok (p.asStr, var.2)
  | .defineValue =>
      .ok (var.1, { var.2 with values := var.2.values ++ [p.asStr] })
  | _ => .panic "unexpected rule inside define rule expected variable_name, define_value"

def parseDefine (m : Makefile) (pairs : List (Pair Rule)) :
    Outcome MakefileError Makefile := do
  let var ← Outcome.fold readDefinePair ([], {}) pairs
  return insertVariable m var

def readIncludePair (m : Makefile) (p : Pair Rule) :
    Outcome MakefileError Makefile :=
  match p.asRule with
  | .variableValue => .ok { m with includes := m.includes ++ [p.asStr] }
  | _ => .panic "unexpected rule inside include rule expected variable_value"

def parseInclude (m : Makefile) (pairs : List (Pair Rule)) :
    Outcome MakefileError Makefile :=
  Outcome.fold readIncludePair m pairs

def readMakefilePair (m : Makefile) (p : Pair Rule) :
    Outcome MakefileError Makefile :=
  match p.asRule with
  | .variableRule => parseVariable m p.intoInner
  | .commentString => .ok m
  | .includeRule => parseInclude m p.intoInner
  | .target => .ok m
  | .define => parseDefine m p.intoInner
  | .EOI => .ok m
  | _ => .panic "unexpected rule inside makefile rule expected variable, define, comment, NEWLINE, include, target"

def parseMakefile (m : Makefile) (pairs : List (Pair Rule)) :
    Outcome MakefileError Makefile :=
  Outcome.fold readMakefilePair m pairs

def readPair (m : Makefile) (p : Pair Rule) : Outcome MakefileError Makefile :=
  match p.asRule with
  | .makefile => parseMakefile m p.intoInner
  | _ => .panic "unexpected rule inside pair expected manifest"

def parseString (upper : UppercaseTable) (content : Text) :
    Outcome MakefileError Makefile :=
  match parse skip (Grammar.makefile upper) content with
  | none => .err .parserError
  | some pairs => Outcome.fold readPair new pairs

end Makefile

end Ips
