import Ips.Peg
import Ips.RustPrelude

/-!
# Macros in scripts

The grammar of `specfile/src/macro.pest`, rule by rule, and the walk over its
pairs that expands the macros of a script line by line
(`specfile/src/macros.rs`).  The rules for environment variables are left out:
no other rule uses them.
-/

namespace Ips

open Peg

/-- A line without its line ending: a carriage return belongs to it when a
line feed follows. -/
def stripReturn (line : Text) : Text :=
  if line.getLast? = some '\r' then line.dropLast else line

/-- `str::lines`. -/
def lines (s : Text) : List Text :=
  let parts := s.splitOn '\n'
  parts.dropLast.map stripReturn ++ parts.getLast?.toList.filter (· ≠ [])

namespace Macros

inductive Rule where
  | WHITESPACE
  | char
  | text
  | macroParameter
  | macroName
  | macroParameters
  | specMacroWithoutParameters
  | specMacroWithParameters
  | specMacro
  | specOptionalMacro
  | function
  | textWithMacros
  | file
  | EOI
  deriving DecidableEq, Repr

/-- The name of the rule in a message. -/
def Rule.debug : Rule → String
  | .WHITESPACE => "WHITESPACE"
  | .char => "char"
  | .text => "text"
  | .macroParameter => "macro_parameter"
  | .macroName => "macro_name"
  | .macroParameters => "macro_parameters"
  | .specMacroWithoutParameters => "spec_macro_without_parameters"
  | .specMacroWithParameters => "spec_macro_with_parameters"
  | .specMacro => "spec_macro"
  | .specOptionalMacro => "spec_optional_macro"
  | .function => "function"
  | .textWithMacros => "text_with_macros"
  | .file => "file"
  | .EOI => "EOI"

namespace Grammar

def whitespace : Parser Rule := atomic (choice [str " ", str "\t"])

def char : Parser Rule :=
  rule .char (choice [
    asciiAlphanumeric, str ".", str "_", str "/", str "-", str "=", str ">",
    str "<", str "!", str "'", str "#", str "\""])

def text : Parser Rule :=
  atomicRule .text (choice [repOnce char, whitespace, newline])

def macroParameter : Parser Rule := atomicRule .macroParameter (repOnce char)

def macroName : Parser Rule := atomicRule .macroName (repOnce char)

def macroParameters : Parser Rule := rep (choice [str ",", macroParameter])

def specMacroWithoutParameters : Parser Rule :=
  choice [
    seq [str "%\x7b", macroName, str "\x7d"],
    seq [str "%", macroName]]

def specMacroWithParameters : Parser Rule :=
  choice [
    seq [str "%\x7b", macroName, str "(", macroParameters, str ")", str "\x7d"],
    seq [str "%", macroName, str "(", macroParameters, str ")"]]

def specMacro : Parser Rule :=
  rule .specMacro (choice [specMacroWithParameters, specMacroWithoutParameters])

def specOptionalMacro : Parser Rule :=
  atomicRule .specOptionalMacro (seq [str "%\x7b?", repOnce char, str "\x7d"])

def function : Parser Rule :=
  rule .function (seq [
    str "%(", rep (choice [specMacro, specOptionalMacro, text]), str ")"])

def textWithMacros : Parser Rule :=
  rule .textWithMacros (choice [function, specMacro, specOptionalMacro])

def eoi : Parser Rule := rule .EOI endOfInput

def file : Parser Rule :=
  rule .file (seq [
    soi, rep text, repOnce (choice [text, textWithMacros]), rep text, eoi])

end Grammar

/-- What is skipped between the elements of the non-atomic rules. -/
def skip : List Char → List Char := skipWhitespace Grammar.whitespace

/-! ## The walk -/

inductive MacroParserError where
  | parserError
  | doesNotExist (macroName : Text)
  deriving DecidableEq, Repr

def getVariable (macros : HashMap Text) (macroName : Text) :
    Outcome MacroParserError Text :=
  match macros.lookup macroName with
  | some value => .ok value
  | none => .err (.doesNotExist macroName)

def unexpected (kind : String) (r : Rule) : String :=
  "Unexpected " ++ kind ++
    " please update the code together with the peg grammar: " ++ r.debug

/-- Parameters are only printed. -/
def readMacroPair (macros : HashMap Text) (replacedLine : Text)
    (p : Pair Rule) : Outcome MacroParserError Text :=
  match p.asRule with
  | .macroName => do
      let value ← getVariable macros p.asStr
      return replacedLine ++ value
  | .macroParameter => .ok replacedLine
  | r => .panic (unexpected "macro match" r)

def readInner (macros : HashMap Text) (replacedLine : Text)
    (p : Pair Rule) : Outcome MacroParserError Text :=
  match p.asRule with
  | .specMacro => Outcome.fold (readMacroPair macros) replacedLine p.intoInner
  | r => .panic (unexpected "inner match" r)

def readTestPair (macros : HashMap Text) (replacedLine : Text)
    (p : Pair Rule) : Outcome MacroParserError Text :=
  match p.asRule with
  | .textWithMacros => Outcome.fold (readInner macros) replacedLine p.intoInner
  | .EOI => .ok replacedLine
  | .text => .ok (replacedLine ++ p.asStr ++ [' '])
  | r => .panic (unexpected "match" r)

def replaceLine (macros : HashMap Text) (line : Text) :
    Outcome MacroParserError Text :=
  match Peg.parse skip Grammar.file line with
  | none => .err .parserError
  | some pairs => do
      let replacedLine ← Outcome.fold
        (fun replacedLine pair =>
          Outcome.fold (readTestPair macros) replacedLine pair.intoInner)
        [] pairs
      return trimEnd replacedLine

/-- One round of the loop over the lines, with their count. -/
def pushLine (macros : HashMap Text) (state : ℕ × Text) (line : Text) :
    Outcome MacroParserError (ℕ × Text) := do
  let replacedLine ← replaceLine macros line
  return (state.1 + 1,
    if state.1 = 0 then state.2 ++ replacedLine
    else state.2 ++ '\n' :: replacedLine)

def parse (macros : HashMap Text) (rawString : Text) :
    Outcome MacroParserError Text := do
  let state ← Outcome.fold (pushLine macros) (0, []) (lines rawString)
  return state.2

end Macros

end Ips
