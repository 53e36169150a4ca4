import Yafm.Files.Storage

set_option autoImplicit false

namespace Yafm

open Text Posix Effect

def notFoundOrUnavailable (error : IoError) (notFoundMessage : String) : ApiError :=
  if error = .notFound then .notFound notFoundMessage
  else .unavailable "The shared directory is unavailable."

def removalError (error : IoError) : ApiError :=
  if error = .permissionDenied then
    .unavailable "The shared directory is not writable; file deletion requires a writable mount."
  else notFoundOrUnavailable error "The requested file could not be found."

def ensureWithinRoot (root candidate : Path) : Except ApiError Unit :=
  if root.isPrefixOf candidate then .ok ()
  else .error (.notFound "The requested directory could not be found.")

def PathBuf.join (base : PathBuf) (relative : String) : PathBuf := base ++ (split '/' relative).map asBytes

-- Asks for the literal form of a path first, and for the percent-decoded one where that does not exist.
def literalThenDecoded {α : Type} (find : PathBuf → Storage ApiError (Except IoError α)) (base : PathBuf)
    (relative notFoundMessage : String) : Storage ApiError (PathBuf × α) := do
  let literal := base.join relative
  match ← find literal with
  | .ok found => return (literal, found)
  | .error .notFound =>
    let decoded ← Fallible.ofExcept (percentDecodeRelativePath relative)
    match ← find (base ++ decoded) with
    | .ok found => return (base ++ decoded, found)
    | .error error => throw (notFoundOrUnavailable error notFoundMessage)
  | .error error => throw (notFoundOrUnavailable error notFoundMessage)

def entryMetadata (parent : Path) (name notFoundMessage : String) : Storage ApiError (PathBuf × Metadata) :=
  literalThenDecoded Fs.symlinkMetadata (pathBuf parent) name notFoundMessage

def canonicalEntryTarget (root : Path) (relative notFoundMessage : String) : Storage ApiError Path := do
  let (_, canonical) ← literalThenDecoded Fs.canonicalize (pathBuf root) relative notFoundMessage
  return canonical

-- Either form may be what is opened; the decoded one only where the literal one is missing.
def Opens {α : Type} (look : PathBuf → Except IoError α) (base : PathBuf) (relative : String)
    (opened : PathBuf) (result : α) : Prop :=
  look opened = .ok result ∧
    (opened = base.join relative ∨
      look (base.join relative) = .error .notFound ∧
        ∃ decoded, percentDecodeRelativePath relative = .ok decoded ∧ opened = base ++ decoded)

section

variable {α : Type} {find : PathBuf → Storage ApiError (Except IoError α)}

theorem literalThenDecoded_only {allowed : Op → Prop} (finds : ∀ path, (find path).Only allowed)
    (base : PathBuf) (relative message : String) :
    (literalThenDecoded find base relative message).Only allowed := by
  apply Fallible.only_bind (finds _)
  intro literal
  split
  · simp
  · apply Fallible.only_bind (by simp)
    intro decoded
    apply Fallible.only_bind (finds _)
    intro found
    split <;> simp
  · simp

theorem literalThenDecoded_ok_iff {look : PathBuf → Except IoError α} {disk : Disk}
    (reads : ∀ path, disk.run (find path) = (.ok (look path), disk)) (base : PathBuf)
    (relative message : String) (opened : PathBuf) (result : α) (after : Disk) :
    disk.run (literalThenDecoded find base relative message) = (.ok (opened, result), after) ↔
      after = disk ∧ Opens look base relative opened result := by
  constructor
  · intro ran
    unfold literalThenDecoded at ran
    obtain ⟨first, middle, asked, ran⟩ := Disk.run_bind_ok ran
    rw [reads] at asked
    cases asked
    split at ran
    next found literal =>
      cases ran
      exact ⟨rfl, literal, Or.inl rfl⟩
    next missing =>
      obtain ⟨decoded, middle, decode, ran⟩ := Disk.run_bind_ok ran
      rw [Disk.run_ofExcept, Prod.mk.injEq] at decode
      obtain ⟨decode, rfl⟩ := decode
      obtain ⟨second, middle, asked, ran⟩ := Disk.run_bind_ok ran
      rw [reads] at asked
      cases asked
      split at ran
      next found there =>
        cases ran
        exact ⟨rfl, there, Or.inr ⟨missing, decoded, decode, rfl⟩⟩
      next => cases ran
    next => cases ran
  · rintro ⟨rfl, found, rfl | ⟨missing, decoded, decode, rfl⟩⟩
    · simp [literalThenDecoded, Disk.run_bind, reads, found]
    · simp [literalThenDecoded, Disk.run_bind, reads, missing, decode, found]

end

theorem canonicalEntryTarget_ok_iff (disk : Disk) (root : Path) (relative message : String) (canonical : Path)
    (after : Disk) :
    disk.run (canonicalEntryTarget root relative message) = (.ok canonical, after) ↔
      after = disk ∧ ∃ opened, Opens disk.canonicalize (pathBuf root) relative opened canonical := by
  have each := literalThenDecoded_ok_iff (run_canonicalize disk) (pathBuf root) relative message
  constructor
  · intro ran
    unfold canonicalEntryTarget at ran
    obtain ⟨⟨opened, result⟩, middle, asked, ended⟩ := Disk.run_bind_ok ran
    obtain ⟨rfl, opens⟩ := (each opened result middle).mp asked
    cases ended
    exact ⟨rfl, opened, opens⟩
  · rintro ⟨rfl, opened, opens⟩
    have asked := (each opened canonical after).mpr ⟨rfl, opens⟩
    rw [canonicalEntryTarget, Disk.run_bind, asked]
    rfl

theorem entryMetadata_ok_iff (disk : Disk) (parent : Path) (name message : String) (target : PathBuf)
    (metadata : Metadata) (after : Disk) :
    disk.run (entryMetadata parent name message) = (.ok (target, metadata), after) ↔
      after = disk ∧ Opens disk.lstat (pathBuf parent) name target metadata :=
  literalThenDecoded_ok_iff (run_symlinkMetadata disk) _ _ _ _ _ _

theorem canonicalEntryTarget_only {allowed : Op → Prop} (allows : ∀ path, allowed (.canonicalize path))
    (root : Path) (relative message : String) :
    (canonicalEntryTarget root relative message).Only allowed := by
  apply Fallible.only_bind
  · exact literalThenDecoded_only (fun path => Fallible.only_call (allows path)) _ _ _
  · intro found
    simp

theorem canonicalEntryTarget_reads (root : Path) (relative message : String) :
    (canonicalEntryTarget root relative message).Only Op.Reads :=
  canonicalEntryTarget_only (fun _ => trivial) root relative message

theorem entryMetadata_reads (parent : Path) (name message : String) :
    (entryMetadata parent name message).Only Op.Reads :=
  literalThenDecoded_only (fun _ => Fallible.only_call trivial) _ _ _

theorem ensureWithinRoot_ok_iff (root candidate : Path) (granted : Unit) :
    ensureWithinRoot root candidate = .ok granted ↔ root <+: candidate := by
  unfold ensureWithinRoot
  split
  next within => simpa using within
  next outside => simpa using outside

end Yafm
