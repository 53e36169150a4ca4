import Yafm.Spelling.Forms
import Yafm.Spelling.Masks

set_option autoImplicit false

namespace Yafm

open Text

-- No deny hides the rendered form of a decoded path that is not UTF-8, once the gate has let its request
-- pass.
def DeniesHoldNonUtf8 (p : String) : Prop :=
  ∀ (access : AccessConfig) (groups : List String) (r : String) (decoded : List Bytes), access.Accepted →
    validateRelativePath p = .ok r → percentDecodeRelativePath r = .ok decoded →
    (∃ name ∈ decoded, fromUtf8 name = none) → isPathVisible access groups r →
    ¬(evaluate access groups (decoded.map percentEncodeEntryName)).IsDenied

-- A path that decodes to no text has its segments as the listing would render what they decode to.
def SpelledAsListed (p : String) : Prop :=
  ∀ r decoded, validateRelativePath p = .ok r → percentDecodeRelativePath r = .ok decoded →
    (∃ name ∈ decoded, fromUtf8 name = none) → decoded.map percentEncodeEntryName = pathSegments r

theorem deniesHoldNonUtf8_of_spelled {p : String} (spelled : SpelledAsListed p) : DeniesHoldNonUtf8 p := by
  intro access groups r decoded _ accepted decodes noText visible denied
  have literal := ((ValidPath.of_validate accepted).isPathVisible_iff access groups).mp visible |>.1
  obtain ⟨pattern, source, hidden⟩ := denied
  rw [spelled r decoded accepted decodes noText] at hidden
  rw [hidden] at literal
  cases literal

theorem spelled_of_deniesHoldNonUtf8 {p : String} (holds : DeniesHoldNonUtf8 p) : SpelledAsListed p := by
  intro r decoded accepted decodes noText
  have valid := ValidPath.of_validate accepted
  have components := decodes
  rw [ValidPath.percentDecode_eq] at components
  obtain ⟨bytes, plain⟩ := decodeComponents_ok valid.named components
  obtain ⟨name, member, bad⟩ := noText
  have nonempty : decoded ≠ [] := List.ne_nil_of_mem member
  have named : ∀ name ∈ decoded, name ≠ [] := fun name member => (plain name member).nonempty
  by_contra other
  refine holds (maskRules decoded []).config [] r decoded
    (Rules.config_accepted (maskRules_writable nonempty named (by simp))) accepted
      decodes ⟨name, member, bad⟩ ?_
    (maskRules_denies nonempty named (by simp) [])
  rw [valid.isPathVisible_iff]
  refine ⟨?_, fun texts there => ?_⟩
  · rw [maskRules_visible_iff nonempty named (by simp) _ (by simp [bytes]), bytes, List.forall₂_map_left_iff,
      List.forall₂_same]
    intro matched
    apply other
    rw [bytes, List.map_map, ← List.map_id (pathSegments r), List.map_map]
    exact List.map_congr_left fun segment inside => (maskSegment_literal (matched segment inside)).symm
  · -- decoded text would be text in every component
    have same : texts.map asBytes = decoded := by rw [there.bytes, bytes]
    obtain ⟨text, _, rfl⟩ := List.mem_map.mp (same ▸ member)
    rw [fromUtf8_asBytes] at bad
    cases bad

theorem deniesHoldNonUtf8_iff (p : String) : DeniesHoldNonUtf8 p ↔ SpelledAsListed p :=
  ⟨spelled_of_deniesHoldNonUtf8, deniesHoldNonUtf8_of_spelled⟩

def bareDeny : Rules := ⟨[[]], [["secret"]], []⟩

-- One bad byte below `secret`, and the escape in front of it is judged as it is written.
theorem not_deniesHoldNonUtf8_escaped : ¬DeniesHoldNonUtf8 "%73ecret/%ff" := by
  intro holds
  have deny : Writable ["secret"] := .of_isWritable (by decide +kernel)
  have writable : bareDeny.Writable :=
    ⟨by simp [bareDeny, WritableAllow], by simp [bareDeny, deny], by simp [bareDeny], by decide, by decide⟩
  have denied : (evaluate bareDeny.config [] ["secret", "%FF"]).IsDenied :=
    ⟨"/secret", "global deny", by decide +kernel⟩
  have rendered : [asBytes "secret", [0xff]].map percentEncodeEntryName = ["secret", "%FF"] := by
    decide +kernel
  refine holds bareDeny.config [] "%73ecret/%ff" [asBytes "secret", [0xff]] (Rules.config_accepted writable)
    (by decide +kernel) (by decide +kernel) ⟨[0xff], by simp, by decide +kernel⟩ (by decide +kernel) ?_
  rwa [rendered]

end Yafm
