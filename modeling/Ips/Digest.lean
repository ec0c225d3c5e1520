import Ips.RustPrelude

/-!
# Digests

The text form of a digest is `source:algorithm:hash`; a text without a colon
is a bare hash.  The names of the algorithms and sources are the ones the
enumerations are serialised with.  Reading a printed digest cuts the hash at
its first colon and changes nothing else, so printing and reading are inverse
on exactly the digests with a colon-free hash, and these are the ones that
reading produces.
-/

namespace Ips

inductive DigestAlgorithm where
  | sha1
  | sha256
  | sha512
  | sha512Half
  | sha3256
  | sha3512Half
  | sha3512
  deriving DecidableEq, Repr

inductive DigestSource where
  | gzipCompressed
  | gnuElf
  | gnuElfUnsigned
  | uncompressedFile
  | unknown
  | primaryPayloadHash
  deriving DecidableEq, Repr

def DigestAlgorithm.toText : DigestAlgorithm → Text
  | .sha1 => "sha1".toList
  | .sha256 => "sha256t".toList
  | .sha512 => "sha512t".toList
  | .sha512Half => "sha512t_256".toList
  | .sha3256 => "sha3256t".toList
  | .sha3512Half => "sha3512t_256".toList
  | .sha3512 => "sha3512t".toList

def DigestAlgorithm.all : List DigestAlgorithm :=
  [.sha1, .sha256, .sha512, .sha512Half, .sha3256, .sha3512Half, .sha3512]

def DigestAlgorithm.ofText? (s : Text) : Option DigestAlgorithm :=
  Ips.ofText? DigestAlgorithm.all DigestAlgorithm.toText s

/-- The last source has no name of its own and is printed as its variant. -/
def DigestSource.toText : DigestSource → Text
  | .gzipCompressed => "gzip".toList
  | .gnuElf => "gelf".toList
  | .gnuElfUnsigned => "gelf.unsigned".toList
  | .uncompressedFile => "file".toList
  | .unknown => "unknown".toList
  | .primaryPayloadHash => "PrimaryPayloadHash".toList

def DigestSource.all : List DigestSource :=
  [.gzipCompressed, .gnuElf, .gnuElfUnsigned, .uncompressedFile, .unknown,
    .primaryPayloadHash]

def DigestSource.ofText? (s : Text) : Option DigestSource :=
  Ips.ofText? DigestSource.all DigestSource.toText s

structure Digest where
  hash : Text := []
  algorithm : DigestAlgorithm := .sha1
  source : DigestSource := .primaryPayloadHash
  deriving DecidableEq, Repr

inductive DigestError where
  | unknownAlgorithm (algorithm : Text)
  | invalidDigestFormat (digest details : Text)
  deriving DecidableEq, Repr

/-- Parts after the third are ignored. -/
def Digest.fromStr (s : Text) : Except DigestError Digest :=
  if ':' ∉ s then
    .ok { hash := s, algorithm := .sha1, source := .primaryPayloadHash }
  else
    match splitAt ':' s with
    | source :: algorithm :: hash :: _ =>
        match DigestAlgorithm.ofText? algorithm with
        | some algorithm' =>
            .ok {
              source := (DigestSource.ofText? source).getD .unknown
              algorithm := algorithm'
              hash := hash }
        | none => .error (.unknownAlgorithm algorithm)
    | _ =>
        .error (.invalidDigestFormat s "cannot split into 3 parts".toList)

/-- `Display` of a digest. -/
def Digest.toText (d : Digest) : Text :=
  d.source.toText ++ ':' :: (d.algorithm.toText ++ ':' :: d.hash)

theorem DigestAlgorithm.ofText?_toText (a : DigestAlgorithm) :
    ofText? a.toText = some a := by
  cases a <;> decide

theorem DigestSource.ofText?_toText (source : DigestSource) :
    ofText? source.toText = some source := by
  cases source <;> decide

theorem DigestAlgorithm.colon_not_mem_toText (a : DigestAlgorithm) :
    ':' ∉ a.toText := by
  cases a <;> decide

theorem DigestSource.colon_not_mem_toText (source : DigestSource) :
    ':' ∉ source.toText := by
  cases source <;> decide

theorem Digest.splitAt_toText (d : Digest) :
    ∃ rest, splitAt ':' d.toText =
      d.source.toText :: d.algorithm.toText ::
        d.hash.takeWhile (· != ':') :: rest := by
  obtain ⟨rest, hrest⟩ := exists_splitAt_eq_cons ':' d.hash
  refine ⟨rest, ?_⟩
  calc
    splitAt ':' d.toText =
        d.source.toText ::
          splitAt ':' (d.algorithm.toText ++ ':' :: d.hash) :=
      splitAt_append_cons d.source.colon_not_mem_toText _
    _ = d.source.toText :: d.algorithm.toText :: splitAt ':' d.hash := by
      congr 1
      exact splitAt_append_cons d.algorithm.colon_not_mem_toText _
    _ = _ := by rw [hrest]

theorem Digest.fromStr_toText_eq (d : Digest) :
    fromStr d.toText =
      .ok { d with hash := d.hash.takeWhile (· != ':') } := by
  have hcolon : ':' ∈ d.toText := by simp [toText]
  obtain ⟨rest, hsplit⟩ := d.splitAt_toText
  unfold fromStr
  rw [if_neg (not_not_intro hcolon), hsplit]
  simp only [DigestAlgorithm.ofText?_toText, DigestSource.ofText?_toText,
    Option.getD_some]

theorem Digest.fromStr_toText_eq_ok_iff (d : Digest) :
    fromStr d.toText = .ok d ↔ ':' ∉ d.hash := by
  rw [fromStr_toText_eq, ← takeWhile_bne_eq_self_iff]
  constructor
  · intro h
    exact congrArg Digest.hash (Except.ok.inj h)
  · intro h
    rw [h]

theorem Digest.colon_not_mem_hash_of_fromStr {s : Text} {d : Digest}
    (h : fromStr s = .ok d) : ':' ∉ d.hash := by
  unfold fromStr at h
  split_ifs at h with hcolon
  · split at h
    · rename_i source algorithm hash parts hsplit
      split at h
      · have hhash : hash ∈ splitAt ':' s := by simp [hsplit]
        rw [← Except.ok.inj h]
        intro hmem
        exact (mem_of_mem_splitAt hhash hmem).2 rfl
      · cases h
    · cases h
  · rw [← Except.ok.inj h]
    exact hcolon

/-- The two laws of the text form: which digests survive being printed and
read, and that whatever was read does. -/
theorem Digest.fromStr_codec :
    (∀ d : Digest, fromStr d.toText = .ok d ↔ ':' ∉ d.hash) ∧
      ∀ (s : Text) (d : Digest),
        fromStr s = .ok d → fromStr d.toText = .ok d := by
  refine ⟨fromStr_toText_eq_ok_iff, ?_⟩
  intro s d h
  exact d.fromStr_toText_eq_ok_iff.mpr (colon_not_mem_hash_of_fromStr h)

/-- An input with an unknown source and a fourth part. -/
theorem Digest.fromStr_codec_overlong :
    ∃ d : Digest, fromStr "disk:sha256t:ab:cd".toList = .ok d ∧
      d.toText = "unknown:sha256t:ab".toList ∧
      fromStr d.toText = .ok d := by
  refine ⟨{ hash := "ab".toList, algorithm := .sha256, source := .unknown },
    by decide, by decide, ?_⟩
  exact fromStr_codec.2 "disk:sha256t:ab:cd".toList _ (by decide)

end Ips
