import Ips.Actions
import Ips.ManifestGrammar

/-!
# Reading a manifest

`Manifest::parse_string` walks over the pairs of the parse: every action node
is collected into a generic action, which is then converted and added to the
manifest.
-/

namespace Ips

open Peg

structure Manifest where
  attributes : List Attr := []
  directories : List Dir := []
  files : List File := []
  dependencies : List Dependency := []
  licenses : List License := []
  links : List Link := []
  deriving DecidableEq

namespace Manifest

def new : Manifest := {}

def addFile (m : Manifest) (f : File) : Manifest :=
  { m with files := m.files ++ [f] }

def addAction (m : Manifest) (act : Action) : Outcome ActionError Manifest :=
  match act.kind with
  | .attr => do
      let attr ← Attr.fromAction act
      return { m with attributes := m.attributes ++ [attr] }
  | .dir => do
      let dir ← Dir.fromAction act
      return { m with directories := m.directories ++ [dir] }
  | .file => do
      let file ← File.fromAction act
      return { m with files := m.files ++ [file] }
  | .dependency => do
      let dep ← Dependency.fromAction act
      return { m with dependencies := m.dependencies ++ [dep] }
  | .user => .panic "not yet implemented"
  | .group => .panic "not yet implemented"
  | .driver => .panic "not yet implemented"
  | .license => do
      let license ← License.fromAction act
      return { m with licenses := m.licenses ++ [license] }
  | .link => do
      let link ← Link.fromAction act
      return { m with links := m.links ++ [link] }
  | .legacy => .panic "not yet implemented"
  | .transform => .panic "not yet implemented"
  | .unknown _ => .panic "action not known"

def getActionKind (act : Text) : ActionKind :=
  if act = "set".toList then .attr
  else if act = "depend".toList then .dependency
  else if act = "dir".toList then .dir
  else if act = "file".toList then .file
  else if act = "license".toList then .license
  else if act = "hardlink".toList then .link
  else if act = "link".toList then .link
  else if act = "driver".toList then .driver
  else if act = "group".toList then .group
  else if act = "user".toList then .user
  else if act = "legacy".toList then .legacy
  else if act = "<transform".toList then .transform
  else .unknown act

def readPropertyPair (property : Property) (prop : Pair Rule) :
    Outcome ActionError Property :=
  match prop.asRule with
  | .propertyName => .ok { property with key := prop.asStr }
  | .propertyValue =>
      .ok { property with value := removeChars ['\"', '\\'] prop.asStr }
  | _ => .panic "unexpected rule inside action expected property_name or property_value"

def readActionPair (act : Action) (action : Pair Rule) :
    Outcome ActionError Action :=
  match action.asRule with
  | .actionName => .ok { act with kind := getActionKind action.asStr }
  | .payload => .ok { act with payloadString := action.asStr }
  | .property => do
      let property ← Outcome.fold readPropertyPair {} action.intoInner
      return { act with properties := act.properties ++ [property] }
  | .EOI => .ok act
  | _ => .panic "unexpected rule inside action expected payload, property, action_name"

def readManifestPair (m : Manifest) (pair : Pair Rule) :
    Outcome ActionError Manifest :=
  match pair.asRule with
  | .action => do
      let act ← Outcome.fold readActionPair {} pair.intoInner
      m.addAction act
  | .EOI => .ok m
  | .transform => .ok m
  | _ => .panic "unexpected rule inside manifest expected action"

def readPair (m : Manifest) (p : Pair Rule) : Outcome ActionError Manifest :=
  match p.asRule with
  | .manifest => Outcome.fold readManifestPair m p.intoInner
  | .WHITESPACE => .ok m
  | _ => .panic "unexpected rule inside pair expected manifest"

def parseString (content : Text) : Outcome ActionError Manifest :=
  match parse skip Grammar.manifest content with
  | none => .err .parserError
  | some pairs => Outcome.fold readPair new pairs

end Manifest

end Ips
