import Ips.ManifestParse

/-!
# What the conversions keep of an action

A conversion can only stop on a digest: every other value is stored as it is.
-/

namespace Ips

/-! ## The property in a payload -/

/-- The property split off a payload: its key ends at the first equals sign and
its value at the second one. -/
def splitOff (payload : Text) : Property where
  key := payload.takeWhile (· != '=')
  value := removeChars ['\"', '\\']
    ((payload.dropWhile (· != '=')).tail.takeWhile (· != '='))

theorem splitProperty_eq (s : Text) :
    splitProperty s = .ok ((splitOff s).key, (splitOff s).value) := by
  unfold splitProperty splitOff
  dsimp only
  split_ifs with hequals
  · obtain ⟨key, rest, rfl, hkey⟩ := List.eq_append_cons_of_mem hequals
    have hne := forall_bne_of_not_mem hkey
    obtain ⟨more, hmore⟩ := exists_splitAt_eq_cons '=' rest
    rw [splitAt_append_cons hkey, hmore, List.takeWhile_append_of_pos hne,
      List.dropWhile_append_of_pos hne]
    simp
  · have hne := forall_bne_of_not_mem hequals
    rw [List.takeWhile_eq_self_iff.mpr hne, List.dropWhile_eq_nil_iff.mpr hne]
    rfl

/-! ## Digest-valued entries -/

def isDigestKey (key : Text) : Prop :=
  key = FileKey.chash.text ∨ key = FileKey.contentHash.text

instance (key : Text) : Decidable (isDigestKey key) :=
  inferInstanceAs (Decidable (_ ∨ _))

/-- The texts that a file action reads as digests are digests. -/
def Action.DigestsAccepted (act : Action) : Prop :=
  act.kind = .file →
    (act.payloadString ≠ [] → '/' ∉ act.payloadString →
      ∃ digest, Digest.fromStr act.payloadString = .ok digest) ∧
    ∀ prop ∈ act.properties, isDigestKey prop.key →
      ∃ digest, Digest.fromStr prop.value = .ok digest

theorem FileKey.mem_all (k : FileKey) : k ∈ FileKey.all := by
  cases k <;> decide

theorem FileKey.text_injective : Function.Injective FileKey.text := by
  intro k k'
  cases k <;> cases k' <;> decide

theorem File.addDigest_ok (state : File × Payload) {value : Text}
    (h : ∃ digest, Digest.fromStr value = .ok digest) :
    ∃ state', File.addDigest state value = .ok state' := by
  obtain ⟨digest, hok⟩ := h
  unfold File.addDigest
  rw [hok]
  exact ⟨_, rfl⟩

theorem File.assign_ok (state : File × Payload) (prop : Property)
    (h : isDigestKey prop.key →
      ∃ digest, Digest.fromStr prop.value = .ok digest) :
    ∃ state', File.assign state prop = .ok state' := by
  have hkey : ∀ k, ofText? FileKey.all FileKey.text prop.key = some k →
      FileKey.text k = prop.key :=
    fun k => (ofText?_eq_some_iff FileKey.mem_all FileKey.text_injective).mp
  unfold File.assign
  cases hk : ofText? FileKey.all FileKey.text prop.key with
  | none =>
      dsimp only
      split_ifs
      · exact ⟨_, rfl⟩
      · exact ⟨_, rfl⟩
  | some k =>
      cases k with
      | chash => exact File.addDigest_ok _ (h (.inl (hkey _ hk).symm))
      | contentHash => exact File.addDigest_ok _ (h (.inr (hkey _ hk).symm))
      | _ => exact ⟨_, rfl⟩

/-- The payload is taken, and the loop runs over the properties. -/
theorem File.fromAction_eq_ok {act : Action} {file : File}
    (h : File.fromAction act = .ok file) :
    ∃ start p props final q,
      File.takePayload act = .ok (start, p, props) ∧
      Outcome.fold File.assign (start, p) props = .ok (final, q) ∧
      file = { final with
        payload := if q.primaryIdentifier.hash = [] then none else some q } := by
  unfold File.fromAction at h
  obtain ⟨⟨start, p, props⟩, htake, hrest⟩ := Outcome.bind_eq_ok_iff.mp h
  obtain ⟨⟨final, q⟩, hfold, hfile⟩ := Outcome.bind_eq_ok_iff.mp hrest
  cases hfile
  exact ⟨start, p, props, final, q, htake, hfold, rfl⟩

theorem File.fromAction_ok (act : Action)
    (hpayload : '=' ∉ act.payloadString)
    (hkind : act.kind = .file) (h : act.DigestsAccepted) :
    ∃ file, File.fromAction act = .ok file := by
  obtain ⟨hprimary, hprops⟩ := h hkind
  have hfold : ∀ state, ∃ state',
      Outcome.fold File.assign state act.properties = .ok state' :=
    Outcome.fold_ok File.assign fun state prop hmem =>
      File.assign_ok state prop (hprops prop hmem)
  have htake : ∃ file p,
      File.takePayload act = .ok (file, p, act.properties) := by
    unfold File.takePayload
    by_cases hempty : act.payloadString = []
    · exact ⟨_, _, if_pos hempty⟩
    · by_cases hslash : '/' ∈ act.payloadString
      · rw [if_neg hempty, if_pos hslash, if_neg hpayload]
        exact ⟨_, _, rfl⟩
      · obtain ⟨digest, hdigest⟩ := hprimary hempty hslash
        rw [if_neg hempty, if_neg hslash, hdigest]
        exact ⟨_, _, rfl⟩
  obtain ⟨file, p, htake⟩ := htake
  obtain ⟨state', hstate⟩ := hfold (file, p)
  unfold File.fromAction
  rw [htake, Outcome.ok_bind]
  dsimp only
  rw [hstate]
  exact ⟨_, rfl⟩

end Ips
