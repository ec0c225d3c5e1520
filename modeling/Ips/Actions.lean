import Ips.Digest

/-!
# Actions and their typed forms

The generic action that a manifest line is read into, and its conversion into
the six typed actions (`libips/src/actions/mod.rs`).  Every conversion runs
over the properties once, from left to right, and matches each key against the
texts of the keys that have a field of their own.
-/

namespace Ips

structure Property where
  key : Text := []
  value : Text := []
  deriving DecidableEq, Repr

structure Facet where
  name : Text := []
  value : Text := []
  deriving DecidableEq, Repr

inductive PayloadCompressionAlgorithm where
  | gzip
  | lz4
  deriving DecidableEq, Repr

inductive PayloadBits where
  | independent
  | bits32
  | bits64
  deriving DecidableEq, Repr

inductive PayloadArchitecture where
  | noarch
  | i386
  | sparc
  | arm
  | riscv
  deriving DecidableEq, Repr

structure Payload where
  primaryIdentifier : Digest := {}
  additionalIdentifiers : List Digest := []
  compressionAlgorithm : PayloadCompressionAlgorithm := .lz4
  bitness : PayloadBits := .independent
  architecture : PayloadArchitecture := .noarch
  deriving DecidableEq, Repr

inductive ActionKind where
  | attr
  | dir
  | file
  | dependency
  | user
  | group
  | driver
  | license
  | link
  | legacy
  | unknown (action : Text)
  | transform
  deriving DecidableEq, Repr

structure Action where
  kind : ActionKind := .unknown []
  payload : Payload := {}
  payloadString : Text := []
  properties : List Property := []
  facets : HashMap Facet := ∅
  deriving DecidableEq

inductive ActionError where
  | notBooleanValue (value : Text)
  | parserError
  deriving DecidableEq, Repr

def isFacet (s : Text) : Bool := "facet.".toList.isPrefixOf s

/-- The text after the first dot. -/
def getFacetKey (facetString : Text) : Text :=
  if '.' ∈ facetString then (facetString.dropWhile (· != '.')).tail
  else facetString

def Facet.fromKeyValue (key value : Text) : Facet :=
  { name := getFacetKey key, value := value }

/-- All four faceted actions keep their facets in a map by name. -/
def addFacet (facets : HashMap Facet) (facet : Facet) : Bool × HashMap Facet :=
  ((facets.lookup facet.name).isNone, facets.insert facet.name facet)

def removeFacet (facets : HashMap Facet) (facet : Facet) :
    Bool × HashMap Facet :=
  (decide (facets.lookup facet.name = some facet), facets.erase facet.name)

/-- Only the text between the first two equals signs becomes the value. -/
def splitProperty (propertyString : Text) :
    Outcome ActionError (Text × Text) :=
  if '=' ∈ propertyString then
    match splitAt '=' propertyString with
    | key :: value :: _ => .ok (key, removeChars ['\"', '\\'] value)
    | _ => .panic "index out of bounds"
  else .ok (propertyString, [])

/-- The words compared with are ASCII, and no other character has one of their
letters as its lower case, so the ASCII lower case decides. -/
def stringToBool (orig : Text) : Except ActionError Bool :=
  let word := (trim orig).map Char.toLower
  if word = "true".toList then .ok true
  else if word = "false".toList then .ok false
  else if word = "t".toList then .ok true
  else if word = "f".toList then .ok false
  else .error (.notBooleanValue orig)

/-- The properties of an action followed by the one written as its payload. -/
def Action.propertiesWithPayload (act : Action) :
    Outcome ActionError (List Property) :=
  if act.payloadString = [] then .ok act.properties
  else do
    let (key, value) ← splitProperty act.payloadString
    return act.properties ++ [{ key := key, value := value }]

/-! ## Directories -/

structure Dir where
  path : Text := []
  group : Text := []
  owner : Text := []
  mode : Text := []
  revertTag : Text := []
  salvageFrom : Text := []
  facets : HashMap Facet := ∅
  deriving DecidableEq

inductive DirKey where
  | path
  | owner
  | group
  | mode
  | revertTag
  | salvageFrom
  deriving DecidableEq

def DirKey.all : List DirKey :=
  [.path, .owner, .group, .mode, .revertTag, .salvageFrom]

def DirKey.text : DirKey → Text
  | .path => "path".toList
  | .owner => "owner".toList
  | .group => "group".toList
  | .mode => "mode".toList
  | .revertTag => "revert-tag".toList
  | .salvageFrom => "salvage-from".toList

def Dir.assign (dir : Dir) (prop : Property) : Dir :=
  match ofText? DirKey.all DirKey.text prop.key with
  | some .path => { dir with path := prop.value }
  | some .owner => { dir with owner := prop.value }
  | some .group => { dir with group := prop.value }
  | some .mode => { dir with mode := prop.value }
  | some .revertTag => { dir with revertTag := prop.value }
  | some .salvageFrom => { dir with salvageFrom := prop.value }
  | none =>
      if isFacet prop.key then
        { dir with
          facets := (addFacet dir.facets
            (Facet.fromKeyValue prop.key prop.value)).2 }
      else dir

def Dir.fromAction (act : Action) : Outcome ActionError Dir := do
  let props ← act.propertiesWithPayload
  return props.foldl Dir.assign {}

/-! ## Files -/

structure File where
  payload : Option Payload := none
  path : Text := []
  group : Text := []
  owner : Text := []
  mode : Text := []
  preserve : Bool := false
  overlay : Bool := false
  originalName : Text := []
  revertTag : Text := []
  sysAttr : Text := []
  properties : List Property := []
  facets : HashMap Facet := ∅
  deriving DecidableEq

def File.getOriginalPath (file : File) : Option Text :=
  (file.properties.find? fun p => p.key = "original-path".toList).map
    Property.value

/-- A payload with a slash is a property or the original path of the file, a
payload without one is a digest. -/
def File.takePayload (act : Action) :
    Outcome ActionError (File × Payload × List Property) :=
  if act.payloadString = [] then .ok ({}, act.payload, act.properties)
  else if '/' ∈ act.payloadString then
    if '=' ∈ act.payloadString then do
      let (key, value) ← splitProperty act.payloadString
      return ({}, act.payload,
        act.properties ++ [{ key := key, value := value }])
    else
      .ok ({ properties := [{
              key := "original-path".toList
              value := removeChars ['\"', '\\'] act.payloadString }] },
        act.payload, act.properties)
  else do
    let digest ← Outcome.unwrap (Digest.fromStr act.payloadString)
    return ({}, { act.payload with primaryIdentifier := digest },
      act.properties)

/-- A value that is no boolean counts as false. -/
def boolOrFalse (value : Text) : Bool :=
  match stringToBool value with
  | .ok b => b
  | .error _ => false

inductive FileKey where
  | path
  | owner
  | group
  | mode
  | revertTag
  | originalName
  | sysAttr
  | overlay
  | preserve
  | chash
  | contentHash
  deriving DecidableEq

def FileKey.all : List FileKey :=
  [.path, .owner, .group, .mode, .revertTag, .originalName, .sysAttr,
    .overlay, .preserve, .chash, .contentHash]

def FileKey.text : FileKey → Text
  | .path => "path".toList
  | .owner => "owner".toList
  | .group => "group".toList
  | .mode => "mode".toList
  | .revertTag => "revert-tag".toList
  | .originalName => "original_name".toList
  | .sysAttr => "sysattr".toList
  | .overlay => "overlay".toList
  | .preserve => "preserve".toList
  | .chash => "chash".toList
  | .contentHash => "pkg.content-hash".toList

/-- The arm of the two digest keys. -/
def File.addDigest (state : File × Payload) (value : Text) :
    Outcome ActionError (File × Payload) := do
  let digest ← Outcome.unwrap (Digest.fromStr value)
  return (state.1, { state.2 with
    additionalIdentifiers := state.2.additionalIdentifiers ++ [digest] })

def File.assign (state : File × Payload) (prop : Property) :
    Outcome ActionError (File × Payload) :=
  let (file, p) := state
  match ofText? FileKey.all FileKey.text prop.key with
  | some .path => .ok ({ file with path := prop.value }, p)
  | some .owner => .ok ({ file with owner := prop.value }, p)
  | some .group => .ok ({ file with group := prop.value }, p)
  | some .mode => .ok ({ file with mode := prop.value }, p)
  | some .revertTag => .ok ({ file with revertTag := prop.value }, p)
  | some .originalName => .ok ({ file with originalName := prop.value }, p)
  | some .sysAttr => .ok ({ file with sysAttr := prop.value }, p)
  | some .overlay => .ok ({ file with overlay := boolOrFalse prop.value }, p)
  | some .preserve => .ok ({ file with preserve := boolOrFalse prop.value }, p)
  | some .chash => File.addDigest (file, p) prop.value
  | some .contentHash => File.addDigest (file, p) prop.value
  | none =>
      if isFacet prop.key then
        .ok ({ file with
          facets := (addFacet file.facets
            (Facet.fromKeyValue prop.key prop.value)).2 }, p)
      else .ok ({ file with properties := file.properties ++ [prop] }, p)

def File.fromAction (act : Action) : Outcome ActionError File := do
  let (file, p, props) ← File.takePayload act
  let (file, p) ← Outcome.fold File.assign (file, p) props
  return { file with
    payload := if p.primaryIdentifier.hash = [] then none else some p }

/-! ## Dependencies -/

structure Dependency where
  fmri : Text := []
  dependencyType : Text := []
  predicate : Text := []
  rootImage : Text := []
  optional : List Property := []
  facets : HashMap Facet := ∅
  deriving DecidableEq

inductive DependencyKey where
  | fmri
  | type
  | predicate
  | rootImage
  deriving DecidableEq

def DependencyKey.all : List DependencyKey :=
  [.fmri, .type, .predicate, .rootImage]

def DependencyKey.text : DependencyKey → Text
  | .fmri => "fmri".toList
  | .type => "type".toList
  | .predicate => "predicate".toList
  | .rootImage => "root-image".toList

def Dependency.assign (dep : Dependency) (prop : Property) : Dependency :=
  match ofText? DependencyKey.all DependencyKey.text prop.key with
  | some .fmri => { dep with fmri := prop.value }
  | some .type => { dep with dependencyType := prop.value }
  | some .predicate => { dep with predicate := prop.value }
  | some .rootImage => { dep with rootImage := prop.value }
  | none =>
      if isFacet prop.key then
        { dep with
          facets := (addFacet dep.facets
            (Facet.fromKeyValue prop.key prop.value)).2 }
      else { dep with optional := dep.optional ++ [prop] }

def Dependency.fromAction (act : Action) : Outcome ActionError Dependency := do
  let props ← act.propertiesWithPayload
  return props.foldl Dependency.assign {}

/-! ## Attributes, licenses and links -/

structure Attr where
  key : Text := []
  values : List Text := []
  properties : HashMap Property := ∅
  deriving DecidableEq

inductive AttrKey where
  | name
  | value
  deriving DecidableEq

def AttrKey.all : List AttrKey := [.name, .value]

def AttrKey.text : AttrKey → Text
  | .name => "name".toList
  | .value => "value".toList

def Attr.assign (attr : Attr) (prop : Property) : Attr :=
  match ofText? AttrKey.all AttrKey.text prop.key with
  | some .name => { attr with key := prop.value }
  | some .value => { attr with values := attr.values ++ [prop.value] }
  | none => { attr with properties := attr.properties.insert prop.key prop }

def Attr.fromAction (act : Action) : Outcome ActionError Attr := do
  let props ← act.propertiesWithPayload
  return props.foldl Attr.assign {}

structure License where
  payload : Text := []
  properties : HashMap Property := ∅
  deriving DecidableEq

def License.assign (license : License) (prop : Property) : License :=
  { license with properties := license.properties.insert prop.key prop }

/-- A license keeps its payload as it is written. -/
def License.fromAction (act : Action) : Outcome ActionError License :=
  .ok (act.properties.foldl License.assign { payload := act.payloadString })

structure Link where
  path : Text := []
  target : Text := []
  properties : HashMap Property := ∅
  deriving DecidableEq

inductive LinkKey where
  | path
  | target
  deriving DecidableEq

def LinkKey.all : List LinkKey := [.path, .target]

def LinkKey.text : LinkKey → Text
  | .path => "path".toList
  | .target => "target".toList

def Link.assign (link : Link) (prop : Property) : Link :=
  match ofText? LinkKey.all LinkKey.text prop.key with
  | some .path => { link with path := prop.value }
  | some .target => { link with target := prop.value }
  | none => { link with properties := link.properties.insert prop.key prop }

def Link.fromAction (act : Action) : Outcome ActionError Link := do
  let props ← act.propertiesWithPayload
  return props.foldl Link.assign {}

end Ips
