import Ips.Peg
import Ips.RustPrelude

/-!
# Spec files

The grammar of `specfile/src/specfile.pest`, rule by rule, and the walk over
its pairs that fills in a spec file (`specfile/src/lib.rs`).  The rules
`variable` and `section` and the field `variables` carry longer names here, as
these words are reserved.

The lines of a section are counted in a signed 32-bit integer.  What an
overflow does depends on the build profile: it panics where overflow checks are
on and wraps around where they are off.
-/

namespace Ips

open Peg

structure SpecFile where
  name : Text := []
  version : Text := []
  release : Text := []
  summary : Text := []
  license : Text := []
  sources : List Text := []
  variableMap : HashMap Text := ∅
  description : Text := []
  prepScript : Text := []
  buildScript : Text := []
  installScript : Text := []
  files : List Text := []
  changelog : Text := []
  deriving DecidableEq

inductive SpecError where
  | parserError
  deriving DecidableEq, Repr

namespace SpecFile

inductive Rule where
  | alpha
  | digit
  | uppercase
  | char
  | WHITESPACE
  | text
  | variableName
  | variableText
  | variableRule
  | emptyVariable
  | multilineVariable
  | sectionText
  | commentLine
  | sectionLine
  | sectionName
  | sectionRule
  | file
  | EOI
  deriving DecidableEq, Repr

/-- The name of the rule in a message. -/
def Rule.debug : Rule → String
  | .alpha => "alpha"
  | .digit => "digit"
  | .uppercase => "uppercase"
  | .char => "char"
  | .WHITESPACE => "WHITESPACE"
  | .text => "text"
  | .variableName => "variable_name"
  | .variableText => "variable_text"
  | .variableRule => "variable"
  | .emptyVariable => "empty_variable"
  | .multilineVariable => "multiline_variable"
  | .sectionText => "section_text"
  | .commentLine => "comment_line"
  | .sectionLine => "section_line"
  | .sectionName => "section_name"
  | .sectionRule => "section"
  | .file => "file"
  | .EOI => "EOI"

namespace Grammar

def alpha : Parser Rule := rule .alpha (choice [range 'a' 'z', range 'A' 'Z'])

def digit : Parser Rule := rule .digit (range '0' '9')

def uppercase : Parser Rule := rule .uppercase (range 'A' 'Z')

def char : Parser Rule :=
  rule .char (choice [
    asciiAlphanumeric, str ",", str ".", str "_", str "/", str "-", str "=",
    str ">", str "<", str "!", str "'", str "#", str ":", str "\x7b",
    str "\x7d", str "%", str "*", str "@", str "\""])

def whitespace : Parser Rule := atomic (choice [str " ", str "\t"])

def text : Parser Rule := atomicRule .text (choice [repOnce char, whitespace])

def variableName : Parser Rule :=
  atomicRule .variableName (seq [uppercase, repOnce alpha, rep digit])

def variableText : Parser Rule := atomicRule .variableText (repOnce text)

def variableRule : Parser Rule :=
  rule .variableRule (seq [variableName, str ":", variableText])

def emptyVariable : Parser Rule :=
  rule .emptyVariable (seq [variableName, str ":"])

def multilineVariable : Parser Rule :=
  rule .multilineVariable (seq [
    variableName, str ":", opt newline, repOnce (seq [text, newline])])

def sectionText : Parser Rule := atomicRule .sectionText (repOnce text)

def commentLine : Parser Rule :=
  atomicRule .commentLine (seq [str "#", sectionText])

def sectionLine : Parser Rule :=
  rule .sectionLine (choice [
    seq [commentLine, newline], seq [sectionText, newline]])

def sectionName : Parser Rule :=
  atomicRule .sectionName (repOnce (choice [asciiAlphaLower, asciiDigit]))

def sectionRule : Parser Rule :=
  rule .sectionRule (seq [
    str "%", sectionName, newline, repOnce sectionLine])

def eoi : Parser Rule := rule .EOI endOfInput

def file : Parser Rule :=
  seq [
    soi,
    repOnce (choice [
      seq [variableRule, repOnce newline],
      seq [multilineVariable, repOnce newline],
      seq [emptyVariable, repOnce newline],
      sectionRule, newline]),
    eoi]

end Grammar

/-- What is skipped between the elements of the non-atomic rules. -/
def skip : List Char → List Char := skipWhitespace Grammar.whitespace

/-! ## Variables -/

inductive KnownVariableControl where
  | name
  | version
  | release
  | summary
  | license
  | none
  deriving DecidableEq, Repr

def KnownVariableControl.of (s : Text) : KnownVariableControl :=
  if s = "Name".toList then .name
  else if s = "Version".toList then .version
  else if s = "Release".toList then .release
  else if s = "Summary".toList then .summary
  else if s = "License".toList then .license
  else .none

structure VariableState where
  varControl : KnownVariableControl := .none
  varNameTmp : Text := []
  spec : SpecFile

def setVariable (spec : SpecFile) (varControl : KnownVariableControl)
    (varNameTmp value : Text) : SpecFile :=
  match varControl with
  | .name => { spec with name := value }
  | .version => { spec with version := value }
  | .release => { spec with release := value }
  | .summary => { spec with summary := value }
  | .license => { spec with license := value }
  | .none =>
      { spec with variableMap := spec.variableMap.insert varNameTmp value }

def readVariablePair (st : VariableState) (p : Pair Rule) : VariableState :=
  match p.asRule with
  | .variableName =>
      match KnownVariableControl.of p.asStr with
      | .none => { st with varControl := .none, varNameTmp := p.asStr }
      | control => { st with varControl := control }
  | .variableText =>
      { st with
        spec := setVariable st.spec st.varControl st.varNameTmp p.asStr }
  | _ => st

/-! ## Sections -/

/-- The names of sections that the walk knows. -/
inductive Section where
  | description
  | prep
  | build
  | files
  | install
  | changelog
  deriving DecidableEq, Repr

def Section.all : List Section :=
  [.description, .prep, .build, .files, .install, .changelog]

def Section.text : Section → Text
  | .description => "description".toList
  | .prep => "prep".toList
  | .build => "build".toList
  | .files => "files".toList
  | .install => "install".toList
  | .changelog => "changelog".toList

def Section.of? : Text → Option Section := ofText? Section.all Section.text

def appendNewlineString (s : Text) (sectionLine : ℤ) : Text :=
  if sectionLine = 0 then s else '\n' :: s

/-- `section_line += 1` on a signed 32-bit integer. -/
def increment (overflowChecks : Bool) (sectionLine : ℤ) :
    Outcome SpecError ℤ :=
  if sectionLine + 1 < 2 ^ 31 then .ok (sectionLine + 1)
  else if overflowChecks then .panic "attempt to add with overflow"
  else .ok (-2 ^ 31)

structure SectionState where
  sectionNameTmp : Text := []
  sectionLine : ℤ := 0
  spec : SpecFile

/-- Append to a field of text, then count the line. -/
def pushLine (overflowChecks : Bool) (st : SectionState)
    (push : SpecFile → Text → SpecFile) (line : Text) :
    Outcome SpecError SectionState := do
  let count ← increment overflowChecks st.sectionLine
  return { st with
    sectionLine := count
    spec := push st.spec (appendNewlineString line st.sectionLine) }

def storeLine (overflowChecks : Bool) (st : SectionState) (line : Text) :
    Outcome SpecError SectionState :=
  match Section.of? st.sectionNameTmp with
  | some .description =>
      pushLine overflowChecks st
        (fun spec s => { spec with description := spec.description ++ s }) line
  | some .prep =>
      pushLine overflowChecks st
        (fun spec s => { spec with prepScript := spec.prepScript ++ s }) line
  | some .build =>
      pushLine overflowChecks st
        (fun spec s => { spec with buildScript := spec.buildScript ++ s }) line
  | some .files =>
      .ok { st with
        spec := { st.spec with files := st.spec.files ++ [trimEnd line] } }
  | some .install =>
      pushLine overflowChecks st
        (fun spec s => { spec with installScript := spec.installScript ++ s })
        line
  | some .changelog =>
      pushLine overflowChecks st
        (fun spec s => { spec with changelog := spec.changelog ++ s }) line
  | none => .panic ("Unknown Section: " ++ Rule.sectionText.debug)

def readLineOrComment (overflowChecks : Bool) (st : SectionState)
    (p : Pair Rule) : Outcome SpecError SectionState :=
  if p.asRule = .sectionText then storeLine overflowChecks st p.asStr
  else .ok st

def unknownRule (r : Rule) : String :=
  "Rule not known please update the code: " ++ r.debug

def readSectionPair (overflowChecks : Bool) (st : SectionState)
    (p : Pair Rule) : Outcome SpecError SectionState :=
  match p.asRule with
  | .sectionName => .ok { st with sectionNameTmp := p.asStr }
  | .sectionLine =>
      Outcome.fold (readLineOrComment overflowChecks) st p.intoInner
  | r => .panic (unknownRule r)

/-! ## Whole files -/

def readPair (overflowChecks : Bool) (spec : SpecFile) (p : Pair Rule) :
    Outcome SpecError SpecFile :=
  match p.asRule with
  | .variableRule =>
      .ok (p.intoInner.foldl readVariablePair { spec := spec }).spec
  | .sectionRule => do
      let st ← Outcome.fold (readSectionPair overflowChecks)
        { spec := spec } p.intoInner
      return st.spec
  | .EOI => .ok spec
  | r => .panic (unknownRule r)

def parse (overflowChecks : Bool) (fileContents : Text) :
    Outcome SpecError SpecFile :=
  match Peg.parse skip Grammar.file fileContents with
  | none => .err .parserError
  | some pairs => Outcome.fold (readPair overflowChecks) {} pairs

end SpecFile

end Ips
