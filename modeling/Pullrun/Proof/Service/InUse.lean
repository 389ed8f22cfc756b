import Pullrun.Proof.Service.Session
import Pullrun.Service.InUse

/-!
# Removing an image that a workload needs

A workload's image is safe from a `remove_image` if something holds it: a tag that is left, or a
stored node that is not itself below what is removed.
-/

namespace Pullrun

open Option Finmap Multiset Schedule

namespace ImageHost

open MmapStore Sample

variable {cfg : RuntimeConfig}

def session (s : ImageHost) : Session := ⟨s.service.store, s.tags⟩

abbrev graph (cfg : RuntimeConfig) (s : ImageHost) : RefGraph Digest :=
  s.session.graph cfg.formats.codec

/-- Does `remove_image` return success? -/
def Removes (s : ImageHost) (rootDigest : Str) (root : Digest) : Prop :=
  Digest.fromHex rootDigest = .ok root ∧ s.service.imageTags.lookup rootDigest ≠ none ∧
    ¬ s.service.inUse rootDigest

/-- A `remove_image` that returns success deletes nothing that is reachable from what a workload in
    the table was started from. -/
def Spares (cfg : RuntimeConfig) (s : ImageHost) : Op cfg.formats.codec → Prop
  | .remove rootDigest =>
    (s.service.removeImage cfg rootDigest).result = .ok rootDigest →
      ∀ d, s.service.Needs d → ∀ v, (s.graph cfg).Reach d v →
        s.service.store.disk.hasNode v = true →
          (s.service.removeImage cfg rootDigest).store.disk.hasNode v = true
  | _ => True

/-- Something besides the image under `root` leads to the digest: another digest that is tagged, or
    another tag of the same one, or a stored node outside the image. -/
def Backed (cfg : RuntimeConfig) (s : ImageHost) (root d : Digest) : Prop :=
  (∃ t ∈ s.tags.erase root, (s.graph cfg).Reach t d) ∨
    ∃ p, s.service.store.disk.hasNode p = true ∧ ¬ (s.graph cfg).Reach root p ∧
      (s.graph cfg).Reach p d

/-- What the workloads need, as far as it is stored and below the image that is removed, is backed by
    something else. -/
def Held (cfg : RuntimeConfig) (s : ImageHost) : Op cfg.formats.codec → Prop
  | .remove rootDigest =>
    ∀ root, s.Removes rootDigest root → ∀ d, s.service.Needs d →
      s.service.store.disk.hasNode d = true → (s.graph cfg).Reach root d → Backed cfg s root d
  | _ => True

/-! ## The counts are exact -/

/-- The counts are exact, the edges are those of the listed nodes, and every key of the tag table is
    the text of a digest that is tagged. -/
structure Inv (cfg : RuntimeConfig) (ns : List DagNode) (s : ImageHost) : Prop where
  sound : Session.Sound cfg.formats.codec s.session
  edges : Session.EdgesIn cfg.formats.codec ns s.session
  keys : ∀ key, s.service.imageTags.lookup key ≠ none → ∃ d ∈ s.tags, key = d.asHex

theorem inv_start (ns : List DagNode) : Inv cfg ns start where
  sound := Session.sound_start _ (some defaultMaxCacheBytes) (some defaultMaxCacheBytes)
  edges := Session.edgesIn_start _ ns (some defaultMaxCacheBytes) (some defaultMaxCacheBytes)
  keys key hkey := absurd (lookup_empty key) hkey

variable {ns : List DagNode} {s s' : ImageHost} {rootDigest : Str} {root : Digest}

theorem Inv.of_same (h : Inv cfg ns s) (hses : s'.session = s.session)
    (htags : s'.service.imageTags = s.service.imageTags) :
    Inv cfg ns s' where
  sound := by rw [hses]; exact h.sound
  edges := by rw [hses]; exact h.edges
  keys key hkey := by
    rw [htags] at hkey
    have ht : s'.tags = s.tags := congrArg Session.tags hses
    rw [ht]
    exact h.keys key hkey

theorem Inv.stored (h : Inv cfg ns s) {nodes : List (DagNode × Bytes)}
    (henc : ∀ p ∈ nodes, cfg.formats.codec.Encodes p.1 p.2) (hns : ∀ p ∈ nodes, p.1 ∈ ns) :
    Inv cfg ns (s.stored cfg nodes) := by
  induction nodes generalizing s with
  | nil => exact h
  | cons p rest ih =>
    have he := henc p List.mem_cons_self
    have hput : Inv cfg ns { s with service.store := (s.service.store.put cfg.formats.codec p.1).2 } :=
      { sound := h.sound.put he
        edges := h.edges.put (hns p List.mem_cons_self) he
        keys := h.keys }
    exact ih hput (fun q hq => henc q (List.mem_cons_of_mem _ hq))
      fun q hq => hns q (List.mem_cons_of_mem _ hq)

theorem Inv.tagged (h : Inv cfg ns s) (root : Digest) (reference : Str) :
    Inv cfg ns (s.tagged root reference) where
  sound := h.sound.addTag root
  edges := by
    refine Session.EdgesIn.of_edges h.edges fun p q he => ?_
    change ((s.session.addTag root).graph cfg.formats.codec).Edge p q at he
    rw [Session.graph_addTag] at he
    exact he
  keys key hkey := by
    change lookup key (insert root.asHex reference s.service.imageTags) ≠ none at hkey
    by_cases hk : key = root.asHex
    · exact ⟨root, mem_cons_self _ _, hk⟩
    · rw [lookup_insert_of_ne _ hk] at hkey
      obtain ⟨d, hd, hkd⟩ := h.keys key hkey
      exact ⟨d, mem_cons_of_mem hd, hkd⟩

theorem step_pull {imageRef : Str} {fetched : Option (Image cfg.formats.codec)}
    (hstep : s.step cfg (.pull imageRef fetched) = some s') :
    s' = s ∨ ∃ image, fetched = some image ∧
      s' = (s.stored cfg image.nodes).tagged image.root imageRef := by
  unfold step at hstep
  dsimp only at hstep
  split at hstep
  · exact .inl (some.inj hstep).symm
  · cases fetched with
    | none => exact .inl (some.inj hstep).symm
    | some image => exact .inr ⟨image, rfl, (some.inj hstep).symm⟩

/-! ## Removing an image -/

theorem removeImage_of_removes (h : s.Removes rootDigest root) :
    s.service.removeImage cfg rootDigest = ⟨.ok rootDigest,
      (s.service.store.removeTag cfg.formats.codec root).2, some (.remove rootDigest)⟩ := by
  obtain ⟨hroot, hkey, huse⟩ := h
  rw [RuntimeService.removeImage, hroot]
  dsimp only
  rw [if_neg hkey, if_neg huse]

theorem removes_of_ok {text : Str} (h : (s.service.removeImage cfg rootDigest).result = .ok text) :
    ∃ root, s.Removes rootDigest root := by
  revert h
  fun_cases s.service.removeImage cfg rootDigest with
  | case1 | case2 | case3 => rintro ⟨⟩
  | case4 root hroot hkey huse => exact fun _ => ⟨root, hroot, hkey, huse⟩

theorem removes_or_same (cfg : RuntimeConfig) (s : ImageHost) (rootDigest : Str) :
    (∃ root, s.Removes rootDigest root) ∨ s.removeImage cfg rootDigest = s := by
  cases hres : (s.service.removeImage cfg rootDigest).result with
  | error e => exact .inr (by rw [removeImage, hres])
  | ok text => exact .inl (removes_of_ok hres)

theorem removeImage_eq (h : s.Removes rootDigest root) :
    s.removeImage cfg rootDigest = { s with
      service.store := (s.service.store.removeTag cfg.formats.codec root).2
      service.imageTags := s.service.imageTags.erase rootDigest
      tags := s.tags.erase root } := by
  rw [removeImage, removeImage_of_removes h]
  dsimp only
  rw [untag, h.1]
  rfl

section

variable (h : Inv cfg ns s)
include h

theorem Inv.released (hrem : s.Removes rootDigest root) :
    Session.step cfg.formats.codec cfg.manifestJson s.session (.removeTag root)
      = some (s.removeImage cfg rootDigest).session := by
  obtain ⟨d, hd, hkey⟩ := h.keys rootDigest hrem.2.1
  have hroot : root = d := by
    have := hrem.1
    rw [hkey, Digest.fromHex_asHex] at this
    injection this with this
    exact this.symm
  rw [removeImage_eq hrem, Session.step, if_pos (show root ∈ s.session.tags from hroot ▸ hd)]
  rfl

theorem Inv.removeImage (hrem : s.Removes rootDigest root) :
    Inv cfg ns (s.removeImage cfg rootDigest) := by
  obtain ⟨-, -, hsound, -, hrel⟩ := h.sound.removeTag (h.released hrem)
  refine ⟨hsound, h.edges.removeTag hrel, fun key hkey => ?_⟩
  rw [removeImage_eq hrem] at hkey ⊢
  change lookup key (erase rootDigest s.service.imageTags) ≠ none at hkey
  have hne : key ≠ rootDigest := by
    rintro rfl
    exact hkey (lookup_erase key _)
  rw [lookup_erase_ne hne] at hkey
  obtain ⟨d, hd, hkd⟩ := h.keys key hkey
  refine ⟨d, (mem_erase_of_ne ?_).mpr hd, hkd⟩
  -- The text of the removed root is a key too, so it is the one text that its digest has.
  rintro rfl
  obtain ⟨e, -, hroot⟩ := h.keys rootDigest hrem.2.1
  have hed := hrem.1
  rw [hroot, Digest.fromHex_asHex] at hed
  injection hed with hed
  rw [hed] at hroot
  exact hne (hkd.trans hroot.symm)

theorem Inv.step {op : Op cfg.formats.codec}
    (hns : op.nodes ⊆ ns) (hstep : s.step cfg op = some s') : Inv cfg ns s' := by
  have hstored : ∀ (image : Image cfg.formats.codec) (k : ℕ), image.nodes.map Prod.fst ⊆ ns →
      Inv cfg ns (s.stored cfg (image.nodes.take k)) := by
    intro image k hsub
    refine h.stored (fun p hp => image.encodes p (List.mem_of_mem_take hp)) fun p hp => ?_
    exact hsub (List.mem_map_of_mem (List.mem_of_mem_take hp))
  have hall : ∀ image : Image cfg.formats.codec, image.nodes.map Prod.fst ⊆ ns →
      Inv cfg ns (s.stored cfg image.nodes) := by
    intro image hsub
    have := hstored image image.nodes.length hsub
    rwa [List.take_length] at this
  cases op with
  | pull imageRef fetched =>
    rcases step_pull hstep with rfl | ⟨image, rfl, rfl⟩
    · exact h
    · exact (hall image hns).tagged _ _
  | build tag image =>
    cases hstep
    exact (hall image hns).tagged _ _
  | untagged image k =>
    cases hstep
    exact hstored image k hns
  | run req =>
    cases hstep
    have hkernel : ∀ t, s.stageKernel cfg req = some t → Inv cfg ns t := by
      intro t ht
      rw [stageKernel] at ht
      split at ht
      · cases ht
        exact h
      · obtain ⟨id, rootDigest, vm, kernelImage, fetched, launched⟩ := req
        cases fetched with
        | none => cases ht
        | some image =>
          cases ht
          exact (hall image hns).of_same rfl rfl
    rw [runWorkload]
    cases ht : s.stageKernel cfg req with
    | none => exact h
    | some t =>
      have hinv := hkernel t ht
      dsimp only
      split
      · exact hinv
      · split
        · exact hinv.of_same rfl rfl
        · exact hinv
  | exit id | prune =>
    cases hstep
    exact h.of_same rfl rfl
  | stop id =>
    cases hstep
    exact h
  | remove rootDigest =>
    cases hstep
    rcases removes_or_same cfg s rootDigest with ⟨root, hrem⟩ | hsame
    · exact h.removeImage hrem
    · rw [hsame]
      exact h

/-! ## What is deleted -/

theorem Inv.stays_iff (hac : cfg.formats.codec.Acyclic ns)
    (hrem : s.Removes rootDigest root) {v : Digest} (hv : s.service.store.disk.hasNode v = true) :
    (s.removeImage cfg rootDigest).service.store.disk.hasNode v = true ↔
      ((s.graph cfg).Reach root v → Backed cfg s root v) := by
  obtain ⟨-, htags, -, -, hrel⟩ := h.sound.removeTag (h.released hrem)
  have hmem : v ∈ (s.graph cfg).stored := Disk.mem_graph_stored.mpr hv
  have hdrop := hrel.dropped_iff (h.edges.acyclic hac) v hmem
  simp only [RefGraph.setRc_reach, RefGraph.setRc_stored, Disk.mem_graph_stored,
    count_pos, htags] at hdrop
  rw [Backed, ← not_iff_not, Classical.not_imp, not_or]
  exact hdrop

theorem Inv.stays_below (hrem : s.Removes rootDigest root) {d v : Digest}
    (hd : (s.removeImage cfg rootDigest).service.store.disk.hasNode d = true)
    (hreach : (s.graph cfg).Reach d v) (hv : s.service.store.disk.hasNode v = true) :
    (s.removeImage cfg rootDigest).service.store.disk.hasNode v = true := by
  obtain ⟨-, -, -, -, hrel⟩ := h.sound.removeTag (h.released hrem)
  have hd' : d ∈ ((s.removeImage cfg rootDigest).graph cfg).stored := Disk.mem_graph_stored.mpr hd
  have hv' : v ∈ (s.graph cfg).stored := Disk.mem_graph_stored.mpr hv
  exact Disk.mem_graph_stored.mp (hrel.below hd' hreach hv')

theorem Inv.spares_iff (hac : cfg.formats.codec.Acyclic ns)
    (op : Op cfg.formats.codec) : Spares cfg s op ↔ Held cfg s op := by
  cases op with
  | remove rootDigest =>
    have hafter : ∀ root, s.Removes rootDigest root →
        (s.service.removeImage cfg rootDigest).store
          = (s.removeImage cfg rootDigest).service.store := by
      intro root hrem
      rw [removeImage_eq hrem, removeImage_of_removes hrem]
    constructor
    · intro hspares root hrem d hneeds hd
      have hok : (s.service.removeImage cfg rootDigest).result = .ok rootDigest := by
        rw [removeImage_of_removes hrem]
      have hstays := hspares hok d hneeds d (RefGraph.Reach.refl d) hd
      rw [hafter root hrem] at hstays
      exact (h.stays_iff hac hrem hd).mp hstays
    · intro hheld hok d hneeds v hreach hv
      obtain ⟨root, hrem⟩ := removes_of_ok hok
      -- A digest from which a stored node is reached is stored.
      have hd : s.service.store.disk.hasNode d = true := by
        rcases Relation.ReflTransGen.cases_head hreach with heq | ⟨p, hedge, -⟩
        · rw [heq]
          exact hv
        · exact Disk.mem_graph_stored.mp hedge.mem_stored
      rw [hafter root hrem]
      exact h.stays_below hrem ((h.stays_iff hac hrem hd).mpr (hheld root hrem d hneeds hd)) hreach hv
  | _ => exact Iff.rfl

end

/-- **An image that a workload needs survives the removals of a run exactly if every removal finds it
    held by something else.** -/
theorem spared_iff_held {ops : List (Op cfg.formats.codec)}
    (hac : cfg.formats.codec.Acyclic (ops.flatMap Op.nodes)) :
    Schedule.Meets (step cfg) (Spares cfg) start ops ↔
      Schedule.Meets (step cfg) (Held cfg) start ops := by
  refine meets_congr_on (Inv cfg (ops.flatMap Op.nodes))
    (fun op => op.nodes ⊆ ops.flatMap Op.nodes) ?_ ?_ (inv_start _) fun op hop => ?_
  · intro s op s' hi hop _ hstep
    exact hi.step hop hstep
  · intro s op hi _
    exact hi.spares_iff hac op
  · exact fun n hn => List.mem_flatMap.mpr ⟨op, hop, hn⟩

/-- All that the workloads were started from has a tag besides the one that is removed. -/
def OwnTags (s : ImageHost) (rootDigest : Str) : Prop :=
  ∀ root ∈ namedDigest rootDigest, ∀ row ∈ s.service.workloads.entries,
    ∀ text ∈ [row.2.imageRoot, row.2.kernelImageDigest], ∀ d ∈ namedDigest text,
      d ∈ s.tags.erase root

instance (s : ImageHost) (rootDigest : Str) : Decidable (s.OwnTags rootDigest) :=
  have : ∀ root, Decidable (∀ row ∈ s.service.workloads.entries,
      ∀ text ∈ [row.2.imageRoot, row.2.kernelImageDigest], ∀ d ∈ namedDigest text,
        d ∈ s.tags.erase root) := fun _ => Multiset.decidableForallMultiset
  inferInstanceAs (Decidable (∀ root ∈ namedDigest rootDigest, _))

theorem held_of_ownTags (h : s.OwnTags rootDigest) : Held cfg s (.remove rootDigest) := by
  intro root hrem d hneeds _ _
  obtain ⟨row, hrow, hfrom⟩ := hneeds
  have hroot : namedDigest rootDigest = some root := by rw [namedDigest, hrem.1]
  have htag : d ∈ s.tags.erase root := by
    rcases hfrom with hfrom | hfrom
    · exact h root hroot row hrow _ (by simp) d hfrom
    · exact h root hroot row hrow _ (by simp) d hfrom
  exact .inl ⟨d, htag, RefGraph.Reach.refl d⟩

/-! ## A list and its platforms -/

def onPlatform : List (Op Sample.listCodec) :=
  [.build ['m'] Sample.platforms,
    .run ⟨['w'], Sample.imageAD.asHex, false, [], none, true⟩]

theorem platform_deleted :
    ∃ s, Schedule.run (step Sample.listRuntime) start onPlatform = some s ∧
      (s.service.removeImage Sample.listRuntime Sample.listD.asHex).result
        = .ok Sample.listD.asHex ∧
      s.service.Needs Sample.imageAD ∧ s.service.store.disk.hasNode Sample.imageAD = true ∧
      (s.service.removeImage Sample.listRuntime Sample.listD.asHex).store.disk.hasNode
        Sample.imageAD = false := by
  decide +kernel

def withOwnTag : List (Op Sample.listCodec) := onPlatform ++ [.pull ['a'] (some Sample.platformA)]

def thenRemoved : List (Op Sample.listCodec) := withOwnTag ++ [.remove Sample.listD.asHex]

theorem spared_iff_held_withOwnTag :
    Schedule.Meets (step Sample.listRuntime) (Spares Sample.listRuntime) start
        thenRemoved ∧
      ∃ s, Schedule.run (step Sample.listRuntime) start thenRemoved = some s ∧
        s.service.store.disk.hasNode Sample.listD = false ∧
        s.service.store.disk.hasNode Sample.imageAD = true := by
  have hac : listCodec.Acyclic (thenRemoved.flatMap Op.nodes) :=
    listCodec_acyclic.mono (by decide +kernel)
  obtain ⟨s, hrun, hown⟩ : ∃ s, run (step listRuntime) start withOwnTag = some s ∧
      s.OwnTags listD.asHex := by decide +kernel
  have hheld : Meets (step listRuntime) (Held listRuntime) start
      thenRemoved := by
    refine (meets_append hrun).mpr ⟨?_, held_of_ownTags hown, ?_⟩
    · exact ⟨trivial, fun _ _ => ⟨trivial, fun _ _ => ⟨trivial, fun _ _ => trivial⟩⟩⟩
    · exact fun _ _ => trivial
  exact ⟨(spared_iff_held hac).mpr hheld, by decide +kernel⟩

end ImageHost

end Pullrun
