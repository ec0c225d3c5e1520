import Ips.Peg

/-!
# The manifest grammar

A transcription of `libips/src/actions/manifest.pest`, rule by rule.  Rules
that are written `_{ .. }` are silent and produce no node, rules that are
written `@{ .. }` are atomic: nothing is skipped inside them and the rules
they call produce no node.
-/

namespace Ips.Manifest

open Peg

inductive Rule where
  | actionSet
  | actionDepend
  | actionDir
  | actionFile
  | actionLicense
  | actionHardlink
  | actionLink
  | actionDriver
  | actionGroup
  | actionUser
  | actionLegacy
  | actionName
  | quotedString
  | quotedCharacter
  | COMMENT
  | commentCharacter
  | transformCharacter
  | unicodeCharacter
  | WHITESPACE
  | transformAction
  | transform
  | propertyName
  | propertyValue
  | payload
  | property
  | action
  | manifest
  | EOI
  deriving DecidableEq, Repr

namespace Grammar

def actionSet : Parser Rule := atomicRule .actionSet (str "set")
def actionDepend : Parser Rule := atomicRule .actionDepend (str "depend")
def actionDir : Parser Rule := atomicRule .actionDir (str "dir")
def actionFile : Parser Rule := atomicRule .actionFile (str "file")
def actionLicense : Parser Rule := atomicRule .actionLicense (str "license")
def actionHardlink : Parser Rule := atomicRule .actionHardlink (str "hardlink")
def actionLink : Parser Rule := atomicRule .actionLink (str "link")
def actionDriver : Parser Rule := atomicRule .actionDriver (str "driver")
def actionGroup : Parser Rule := atomicRule .actionGroup (str "group")
def actionUser : Parser Rule := atomicRule .actionUser (str "user")
def actionLegacy : Parser Rule := atomicRule .actionLegacy (str "legacy")

def actionName : Parser Rule :=
  atomicRule .actionName (choice [
    actionSet,
    actionDepend,
    actionDir,
    actionFile,
    actionLicense,
    actionHardlink,
    actionLink,
    actionDriver,
    actionGroup,
    actionUser,
    actionLegacy])

def quotedCharacter : Parser Rule :=
  rule .quotedCharacter (seq [negPred (str "\""), any])

def quotedString : Parser Rule :=
  atomicRule .quotedString (seq [str "\"", rep quotedCharacter, str "\""])

def commentCharacter : Parser Rule :=
  rule .commentCharacter (seq [negPred newline, any])

def comment : Parser Rule :=
  atomic (seq [str "#", rep commentCharacter, newline])

def whitespace : Parser Rule :=
  atomic (choice [seq [str "\\", newline], str " ", str "\t"])

def transformCharacter : Parser Rule :=
  rule .transformCharacter (seq [negPred (str ">"), any])

def unicodeCharacter : Parser Rule :=
  rule .unicodeCharacter (seq [negPred (choice [whitespace, newline]), any])

def propertyName : Parser Rule :=
  atomicRule .propertyName (repOnce (choice [
    asciiAlphanumeric, str ".", str "_", str "-", str "/"]))

def propertyValue : Parser Rule :=
  atomicRule .propertyValue (choice [quotedString, repOnce unicodeCharacter])

def payload : Parser Rule := atomicRule .payload propertyValue

def property : Parser Rule :=
  rule .property (seq [propertyName, str "=", propertyValue])

def transformAction : Parser Rule :=
  atomicRule .transformAction (rep transformCharacter)

def transform : Parser Rule :=
  rule .transform (seq [
    str "<transform ", actionName, repOnce property,
    str "->", transformAction, str ">"])

def eoi : Parser Rule := rule .EOI endOfInput

def action : Parser Rule :=
  rule .action (seq [
    actionName, choice [property, payload], rep property,
    choice [newline, eoi]])

def manifest : Parser Rule :=
  rule .manifest (seq [
    soi, repOnce (choice [newline, transform, action]), eoi])

end Grammar

/-- What is skipped between the elements of the non-atomic rules. -/
def skip : List Char → List Char :=
  skipWhitespaceAndComments Grammar.whitespace Grammar.comment

end Ips.Manifest
