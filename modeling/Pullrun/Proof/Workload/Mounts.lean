import Pullrun.Proof.Workload.Accepted
import Pullrun.Workload.Sample

/-!
# Bind mounts and the store

`sanitize_mounts` asks where the source of a mount of type `bind` leads and compares the answer with the
store root. It does not look at the options, which are handed on to runc; and runc makes a bind mount of any
mount with the option `bind` or `rbind`, whatever its type.
-/

namespace Pullrun

open FileTree

variable {κ α : Type}

/-- The daemon's surroundings on a file system: the working directory and the configured store root. -/
def LaunchEnv.on (env : LaunchEnv) (t : Nodes κ α) (cwd storeRoot : Str) : LaunchEnv :=
  { env with
    canonicalize := fun source => (t.realpath cwd source).toOption.map Loc.absolute
    storeRoot }

/-- To runc this is a bind mount. -/
def MountRequest.Binds (m : MountRequest) : Prop :=
  m.type = "bind".toList ∨ "bind".toList ∈ m.options ∨ "rbind".toList ∈ m.options

/-- A place that is not the host root, the store directory, in it or above it. -/
def HidesStore (t : Nodes κ α) (cwd storeRoot : Str) (l : Loc) : Prop :=
  l ≠ [] ∧ ∀ s, t.realpath cwd storeRoot = .ok s → ¬ s <+: l ∧ ¬ l <+: s

/-- No bind mount leads to the host root, to the store directory, into it or to a directory above. -/
def StoreHidden (t : Nodes κ α) (cwd storeRoot : Str) (mounts : List MountRequest) : Prop :=
  ∀ m ∈ mounts, m.Binds → ∀ l, t.realpath cwd m.source = .ok l → HidesStore t cwd storeRoot l

section Sanitize

variable {env : LaunchEnv} {t : Nodes κ α} {cwd storeRoot : Str} {m : MountRequest} {l : Loc}

theorem checkSource_bind (hbind : m.type = "bind".toList) (hl : t.realpath cwd m.source = .ok l) :
    checkSource (env.on t cwd storeRoot) m = .ok () ↔
      l ≠ [] ∧ ¬ components storeRoot <+: l.components := by
  have hsource : m.source ≠ [] := by
    intro hempty
    rw [hempty] at hl
    cases hl
  have hreal : (env.on t cwd storeRoot).canonicalize m.source = some l.absolute := by
    simp [LaunchEnv.on, hl, Except.toOption]
  have hcanonical : components (((env.on t cwd storeRoot).canonicalize m.source).getD m.source) =
      l.components := by
    rw [hreal]
    exact components_absolute (Nodes.canonicalize_proper (components_proper m.source) hl)
  have hroot : l.components = [.rootDir] ↔ l = [] := by simp [Loc.components]
  rw [checkSource, if_pos hbind, if_neg hsource]
  simp only [hcanonical, hroot]
  by_cases hnil : l = []
  · simp [hnil]
  · by_cases hstore : components storeRoot <+: l.components <;> simp [hnil, LaunchEnv.on, hstore]

theorem hidden_of_checkSource (hbind : m.type = "bind".toList)
    (hl : t.realpath cwd m.source = .ok l)
    (hcheck : checkSource (env.on t cwd storeRoot) m = .ok ()) {s : Loc}
    (hs : t.realpath cwd storeRoot = .ok s) :
    (¬ s <+: l ∧ ¬ l <+: s) ↔
      ¬ (l <+: s ∧ l ≠ s) ∧ (components storeRoot ≠ s.components → ¬ s <+: l) := by
  obtain ⟨-, hstore⟩ := (checkSource_bind hbind hl).mp hcheck
  -- A store root that is the path of the store directory is recognised.
  have hfound : components storeRoot = s.components → ¬ s <+: l := by
    intro hwritten hpre
    exact hstore (hwritten ▸ Loc.components_prefix.mpr hpre)
  constructor
  · rintro ⟨hbelow, habove⟩
    exact ⟨fun h => habove h.1, fun _ => hbelow⟩
  · rintro ⟨habove, hbelow⟩
    have hout : ¬ s <+: l := by
      by_cases hwritten : components storeRoot = s.components
      · exact hfound hwritten
      · exact hbelow hwritten
    refine ⟨hout, fun hpre => habove ⟨hpre, ?_⟩⟩
    rintro rfl
    exact hout hpre

end Sanitize

def linkedStore : Nodes Unit Unit :=
  [(["data".toList], .symlink "/srv/store".toList), (["srv".toList], .dir ()),
    (["srv".toList, "store".toList], .dir ()), (["home".toList], .dir ())]

def bindOf (source : Str) : MountRequest := ⟨"bind".toList, source, "/mnt".toList, []⟩

/-- A volume to `sanitize_mounts`, and a bind mount to runc. -/
def volumeOf (source : Str) : MountRequest :=
  ⟨"volume".toList, source, "/mnt".toList, ["rbind".toList]⟩

end Pullrun
