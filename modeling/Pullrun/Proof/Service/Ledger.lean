import Pullrun.Proof.Oci.Writes
import Pullrun.Proof.Service.Import
import Pullrun.Service.Requests

/-!
# What the image requests have counted

Every pull, build and import that binds a digest raises the count of that digest once, and every node
that goes through `put` raises the count of each of its edges.
-/

namespace Pullrun

open MmapStore Finmap Multiset Disk FileMap

def uncounted (c : Codec) (k : Disk) (imported : Finset Digest) (d : Digest) : ℕ :=
  ∑ p ∈ imported, (k.edgesOf c p).count d

/-- The counts of a store are the bound digests plus the edges, but for those of the imported
    nodes. -/
structure Counted (c : Codec) (bound : Multiset Digest) (imported : Finset Digest)
    (s : MmapStore) : Prop where
  coherent : s.Coherent
  valid : s.disk.Valid c
  stored : imported ⊆ s.disk.nodes.keys
  counts : ∀ d, (s.disk.graph c).surplus d + uncounted c s.disk imported d = bound.count d

namespace Counted

variable {c : Codec} {bound : Multiset Digest} {imported : Finset Digest} {s s' : MmapStore}

theorem uncounted_congr {k k' : Disk} (h : ∀ p ∈ imported, k'.edgesOf c p = k.edgesOf c p)
    (d : Digest) : uncounted c k' imported d = uncounted c k imported d :=
  Finset.sum_congr rfl fun p hp => by rw [h p hp]

theorem uncounted_le (h : Counted c bound imported s) (d : Digest) :
    uncounted c s.disk imported d ≤ (s.disk.graph c).inDeg d :=
  Finset.sum_le_sum_of_subset h.stored

theorem getRefcount_eq (h : Counted c bound imported s) (d : Digest) :
    s.disk.getRefcount d + uncounted c s.disk imported d
      = bound.count d + (s.disk.graph c).inDeg d := by
  have := h.counts d
  rw [RefGraph.surplus, graph_rc] at this
  omega

theorem start (c : Codec) : Counted c 0 ∅ .new where
  coherent := coherent_openOn _ _ _
  valid := valid_empty c
  stored := Finset.empty_subset _
  counts d := by
    have hzero := RefGraph.balanced_iff_surplus.mp (empty_balanced c) d
    change (empty.graph c).surplus d + uncounted c _ ∅ d = _
    rw [hzero, uncounted, Finset.sum_empty, count_zero]
    rfl

/-! ## Calls to the store -/

theorem of_eq (h : Counted c bound imported s) (hcoh : s'.Coherent)
    (hn : s'.disk.nodes = s.disk.nodes) (hr : s'.disk.refcounts = s.disk.refcounts) :
    Counted c bound imported s' where
  coherent := hcoh
  valid := h.valid.of_nodes_eq hn
  stored := by rw [hn]; exact h.stored
  counts d := by
    rw [surplus_congr hn hr, uncounted_congr fun p _ => edgesOf_congr hn p]
    exact h.counts d

theorem put (hreads : ∀ n b, c.toBytes n = .ok b → c.checkArchivedRoot b = .ok n)
    (h : Counted c bound imported s) (n : DagNode) : Counted c bound imported (s.put c n).2 := by
  cases hb : c.toBytes n with
  | error e =>
    have hput : (s.put c n).2 = s := by rw [MmapStore.put, putBlocking, hb]
    rw [hput]
    exact h
  | ok b =>
    have he : c.Encodes n b := ⟨hb, hreads n b hb⟩
    refine ⟨putBlocking_coherent h.coherent n, putBlocking_valid h.valid he, ?_, ?_⟩
    · intro p hp
      have hg := Session.grows_put (c := c) s n
      exact mem_keys_iff.mpr (hg.hasNode (mem_keys_iff.mp (h.stored hp)))
    · intro d
      rw [MmapStore.put, putBlocking_disk hb]
      dsimp only
      split
      · exact h.counts d
      · rename_i hn
        have hnew : c.sha256 b ∉ (s.disk.graph c).stored := fun hm =>
          hn (mem_graph_stored.mp hm)
        have hgraph := graph_writeNode_incrementEdges (k := s.disk) (d := c.sha256 b) he.2
        rw [hgraph, RefGraph.surplus_add hnew, uncounted_congr (k := s.disk)]
        · exact h.counts d
        · intro p hp
          have hout := congrFun (congrArg RefGraph.out hgraph) p
          rw [graph_out] at hout
          rw [hout]
          refine if_neg ?_
          rintro rfl
          exact hnew (h.stored hp)

theorem write (hreads : ∀ n b, c.toBytes n = .ok b → c.checkArchivedRoot b = .ok n)
    (hw : Write c s s') (h : Counted c bound imported s) :
    Counted c bound imported s' := by
  cases hw with
  | put n => exact h.put hreads n
  | putBlob d data =>
    obtain ⟨hn, hr, -⟩ := Session.putBlob_frame s d data
    exact h.of_eq (Session.coherent_putBlob h.coherent d data) hn hr
  | getArchived d =>
    have hsame := getArchived_sameFiles c h.coherent d
    exact h.of_eq hsame.coherent (congrArg nodes hsame.disk) (congrArg refcounts hsame.disk)

theorem bind (h : Counted c bound imported s) (d : Digest) :
    Counted c (d ::ₘ bound) imported (s.incrementRefcount d) where
  coherent := Session.coherent_incrementRefcount h.coherent d
  valid := h.valid.of_nodes_eq (setRefcount_nodes _ _ _)
  stored := by
    change imported ⊆ (s.disk.setRefcount d _).nodes.keys
    rw [setRefcount_nodes]
    exact h.stored
  counts e := by
    have hout : ∀ p ∈ imported, (s.disk.incrementRefcount d).2.edgesOf c p = s.disk.edgesOf c p :=
      fun p _ => edgesOf_congr (setRefcount_nodes _ _ _) p
    change ((s.disk.incrementRefcount d).2.graph c).surplus e
      + uncounted c (s.disk.incrementRefcount d).2 imported e = _
    rw [surplus_incrementRefcount, uncounted_congr hout, count_cons]
    have := h.counts e
    rw [List.count_singleton]
    simp only [beq_iff_eq, eq_comm (a := d) (b := e)]
    split <;> omega

/-! ## Imports -/

theorem writeNode (h : Counted c bound imported s) {d : Digest} {b : Bytes} {n : DagNode}
    (hd : ¬ s.disk.hasNode d = true) (hn : c.checkArchivedRoot b = .ok n) :
    Counted c bound (insert d imported) { s with disk := s.disk.writeNode d b } := by
  have hnew : d ∉ imported := fun hm => hd (mem_keys_iff.mp (h.stored hm))
  refine ⟨Cache.Coherent.write h.coherent (by simpa [hasNode] using hd) b,
    h.valid.writeNode d hn, ?_, ?_⟩
  · intro p hp
    refine mem_keys_iff.mpr ((hasNode_writeNode s.disk d p b).mpr ?_)
    rcases Finset.mem_insert.mp hp with rfl | hp
    · exact .inl rfl
    · exact .inr (mem_keys_iff.mp (h.stored hp))
  · intro e
    have hsum : uncounted c (s.disk.writeNode d b) (insert d imported) e
        = n.edges.count e + uncounted c s.disk imported e := by
      rw [uncounted, Finset.sum_insert hnew, edgesOf_writeNode c s.disk d d b hn, if_pos rfl]
      refine congrArg _ (uncounted_congr (fun p hp => ?_) e)
      rw [edgesOf_writeNode c s.disk d p b hn, if_neg]
      rintro rfl
      exact hnew hp
    change ((s.disk.writeNode d b).graph c).surplus e + _ = _
    rw [surplus_writeNode hn (Bool.eq_false_iff.mpr hd), hsum]
    have := h.counts e
    omega

end Counted

def newNodes (s s' : MmapStore) : Finset Digest := s'.disk.nodes.keys \ s.disk.nodes.keys

theorem mem_newNodes {s s' : MmapStore} {d : Digest} :
    d ∈ newNodes s s' ↔ s'.disk.hasNode d = true ∧ ¬ s.disk.hasNode d = true := by
  rw [newNodes, Finset.mem_sdiff, mem_keys_iff, mem_keys_iff]
  rfl

structure Imports (c : Codec) (bound : Multiset Digest) (imported : Finset Digest)
    (s s' : MmapStore) : Prop where
  grows : Session.Grows s s'
  counted : Counted c bound (imported ∪ newNodes s s') s'

namespace Imports

variable {c : Codec} {bound : Multiset Digest} {imported : Finset Digest} {s s' s'' : MmapStore}
  {archive : DagTar.Archive}

theorem of_nodes_eq (h : Counted c bound imported s') (hn : s'.disk.nodes = s.disk.nodes) :
    Imports c bound imported s s' := by
  refine ⟨fun d b hb => by rw [hn]; exact hb, ?_⟩
  rw [newNodes, hn, Finset.sdiff_self, Finset.union_empty]
  exact h

theorem trans (h : Imports c bound imported s s')
    (h' : Imports c bound (imported ∪ newNodes s s') s' s'') : Imports c bound imported s s'' := by
  refine ⟨h.grows.trans h'.grows, ?_⟩
  have hunion : imported ∪ newNodes s s' ∪ newNodes s' s'' = imported ∪ newNodes s s'' := by
    ext d
    simp only [Finset.mem_union, mem_newNodes]
    have h1 : s.disk.hasNode d = true → s'.disk.hasNode d = true := h.grows.hasNode
    have h2 : s'.disk.hasNode d = true → s''.disk.hasNode d = true := h'.grows.hasNode
    tauto
  rw [← hunion]
  exact h'.counted

theorem writeNode (h : Counted c bound imported s) {d : Digest} {b : Bytes} {n : DagNode}
    (hd : ¬ s.disk.hasNode d = true) (hn : c.checkArchivedRoot b = .ok n) :
    Imports c bound imported s { s with disk := s.disk.writeNode d b } := by
  refine ⟨Session.grows_writeNode hd b, ?_⟩
  have hnew : imported ∪ newNodes s { s with disk := s.disk.writeNode d b } = insert d imported := by
    ext e
    simp only [Finset.mem_union, mem_newNodes, hasNode_writeNode, Finset.mem_insert]
    constructor
    · rintro (he | ⟨rfl | he, hne⟩)
      · exact .inr he
      · exact .inl rfl
      · exact absurd he hne
    · rintro (rfl | he)
      · exact .inr ⟨.inl rfl, hd⟩
      · exact .inl he
  rw [hnew]
  exact h.writeNode hd hn

open DagTar

theorem importWrite (h : Counted c bound imported s)
    (hw : ImportWrite c archive s s') : Imports c bound imported s s' := by
  cases hw with
  | @node d b n hfile hd hn habs =>
    rw [exists_coherent h.coherent, Bool.eq_false_iff] at habs
    exact writeNode h habs hn
  | @blob d data hfile =>
    obtain ⟨hn, hr, -⟩ := Session.putBlob_frame s d data
    exact of_nodes_eq (h.of_eq (Session.coherent_putBlob h.coherent d data) hn hr) hn

theorem importWrites (h : Counted c bound imported s)
    (hw : ImportWrites c archive s s') : Imports c bound imported s s' := by
  induction hw with
  | refl => exact of_nodes_eq h rfl
  | tail _ hw ih => exact ih.trans (importWrite ih.counted hw)

end Imports

/-! ## Requests -/

namespace RuntimeService

def Op.Acquires : Op → Prop
  | .pullImage .. | .buildImage .. | .importImage _ => True
  | _ => False

def BuildsThroughStore (c : Codec) (s : RuntimeService) : Op → Prop
  | .buildImage _ store _ _ => Writes c s.store store
  | _ => True

/-- A request binds a digest, or leaves the table alone. -/
inductive Binds (r : Reply) (store : MmapStore) : Prop
  | bound (key reference : Str) (root : Digest) (hkey : Digest.fromHex key = .ok root)
      (heffect : r.effect = some (.insert key reference))
      (hstore : r.store = store.incrementRefcount root)
  | unbound (heffect : r.effect = none) (hstore : r.store = store)

variable {cfg : RuntimeConfig} {s : RuntimeService} {r : Reply}

theorem tagPulled_binds (imageRef : Str) (root : Digest) (store : MmapStore) :
    Binds (tagPulled cfg imageRef root store) store := by
  unfold tagPulled
  refine .bound root.asHex imageRef root (Digest.fromHex_asHex root) ?_ ?_
  all_goals
    dsimp only
    cases evaluatePulled cfg (store.incrementRefcount root) imageRef root.asHex <;> rfl

theorem pullImage_binds {order : List (Σ _ : Str, Str)} {seeds : ImageSeeds} {fuel : ℕ}
    {req : PullImageRequest} (h : s.pullImage cfg order seeds fuel req = some r) :
    ∃ store, Writes cfg.formats.codec s.store store ∧ Binds r store := by
  revert h
  fun_cases s.pullImage cfg order seeds fuel req with
  | case1 | case2 =>
    rintro ⟨⟩
    exact ⟨s.store, .refl _, .unbound rfl rfl⟩
  | case3 => rintro ⟨⟩
  | case4 _ _ _ _ store hconv =>
    rintro ⟨⟩
    exact ⟨store, convert_writes hconv, .unbound rfl rfl⟩
  | case5 _ _ _ root store hconv =>
    rintro ⟨⟩
    exact ⟨store, convert_writes hconv, tagPulled_binds _ root store⟩

theorem buildImage_binds (built : Except String Digest) (store : MmapStore) (tag : Str)
    (push : Option (Except String Unit)) : Binds (buildImage built store tag push) store := by
  unfold buildImage
  cases built with
  | error e => exact .unbound rfl rfl
  | ok root =>
    refine .bound root.asHex (if tag = [] then root.asHex.take 12 else tag) root
      (Digest.fromHex_asHex root) ?_ ?_
    all_goals
      dsimp only
      cases push with
      | none => rfl
      | some pushed =>
        dsimp only
        split
        · rfl
        · cases pushed <;> rfl

theorem importImage_binds (archive : DagTar.Archive) : Binds (s.importImage cfg archive)
    (DagTar.importDagFromTar cfg.formats.codec cfg.manifestJson s.store archive).2 := by
  unfold importImage
  cases himp : DagTar.importDagFromTar cfg.formats.codec cfg.manifestJson s.store archive with
  | mk result store =>
    cases result with
    | error e => exact .unbound rfl rfl
    | ok result =>
      obtain ⟨rootDigest, sizes⟩ := result
      dsimp only
      cases hroot : Digest.fromHex rootDigest with
      | error e => exact .unbound rfl rfl
      | ok root => exact .bound rootDigest _ root hroot rfl rfl

def Tagged (s : RuntimeService) (d : Digest) : Prop :=
  ∃ key ∈ s.imageTags, Digest.fromHex key = .ok d

end RuntimeService

/-! ## The books of a run -/

open RuntimeService

/-- A daemon, the digests that requests have bound, one for each request, and the nodes that imports
    have written. -/
structure Ledger where
  service : RuntimeService
  bound : Multiset Digest
  imported : Finset Digest

namespace Ledger

def boundBy : Option TagEffect → Multiset Digest
  | some (.insert key _) =>
    match Digest.fromHex key with
    | .ok d => {d}
    | .error _ => 0
  | _ => 0

theorem boundBy_none : boundBy none = 0 := rfl

/-- The nodes a request has written past `put`. -/
def importedBy (s : RuntimeService) (r : Reply) : Op → Finset Digest
  | .importImage _ => newNodes s.store r.store
  | _ => ∅

def start (workloads : Finmap fun _ : Str => WorkloadRow) : Ledger := ⟨⟨.new, ∅, workloads⟩, 0, ∅⟩

def step (cfg : RuntimeConfig) (s : Ledger) (op : Op) : Option Ledger :=
  match s.service.reply cfg op with
  | none => none
  | some r =>
    some ⟨s.service.after r, boundBy r.effect + s.bound, s.imported ∪ importedBy s.service r op⟩

structure Inv (c : Codec) (s : Ledger) : Prop where
  counted : Counted c s.bound s.imported s.service.store
  tagged : ∀ d, s.service.Tagged d ↔ d ∈ s.bound

variable {cfg : RuntimeConfig} {s t : Ledger} {op : Op} {store : MmapStore} {r : Reply}

theorem inv_start (c : Codec) (workloads : Finmap fun _ : Str => WorkloadRow) :
    Inv c (start workloads) where
  counted := Counted.start c
  tagged d := by
    refine ⟨fun ⟨key, hkey, _⟩ => absurd hkey notMem_empty, fun hd => ?_⟩
    exact absurd hd (notMem_zero d)

theorem tagged_insert {tags : TagTable} {bound : Multiset Digest} {key reference : Str}
    {root : Digest} (hkey : Digest.fromHex key = .ok root)
    (h : ∀ d, (∃ k ∈ tags, Digest.fromHex k = .ok d) ↔ d ∈ bound) (d : Digest) :
    (∃ k ∈ tags.apply (some (.insert key reference)), Digest.fromHex k = .ok d)
      ↔ d ∈ root ::ₘ bound := by
  rw [mem_cons, ← h d]
  constructor
  · rintro ⟨k, hk, hd⟩
    rcases mem_insert.mp hk with rfl | hk
    · rw [hkey, Except.ok.injEq] at hd
      exact .inl hd.symm
    · exact .inr ⟨k, hk, hd⟩
  · rintro (rfl | ⟨k, hk, hd⟩)
    · exact ⟨key, mem_insert.mpr (.inl rfl), hkey⟩
    · exact ⟨k, mem_insert.mpr (.inr hk), hd⟩

theorem Inv.binds {c : Codec} (h : Inv c s) {imported : Finset Digest}
    (hstore : Counted c s.bound imported store) (hb : Binds r store) :
    Inv c ⟨s.service.after r, boundBy r.effect + s.bound, imported⟩ := by
  cases hb with
  | unbound heffect hr =>
    refine ⟨?_, ?_⟩
    · change Counted c (boundBy r.effect + s.bound) imported r.store
      rw [heffect, hr, boundBy_none, zero_add]
      exact hstore
    · intro d
      change (∃ k ∈ s.service.imageTags.apply r.effect, _) ↔ d ∈ boundBy r.effect + s.bound
      rw [heffect, boundBy_none, zero_add]
      exact h.tagged d
  | bound key reference root hkey heffect hr =>
    have hbound : boundBy r.effect + s.bound = root ::ₘ s.bound := by
      rw [heffect, boundBy, hkey, singleton_add]
    refine ⟨?_, ?_⟩
    · change Counted c (boundBy r.effect + s.bound) imported r.store
      rw [hbound, hr]
      exact hstore.bind root
    · intro d
      change (∃ k ∈ s.service.imageTags.apply r.effect, _) ↔ d ∈ boundBy r.effect + s.bound
      rw [hbound, heffect]
      exact tagged_insert hkey h.tagged d

theorem newNodes_binds {s : MmapStore} (hb : Binds r store) :
    newNodes s r.store = newNodes s store := by
  cases hb with
  | unbound heffect hr => rw [hr]
  | bound key reference root hkey heffect hr =>
    rw [hr, newNodes, newNodes]
    change (store.disk.setRefcount root _).nodes.keys \ _ = _
    rw [setRefcount_nodes]

theorem Inv.step (hreads : ∀ n b, cfg.formats.codec.toBytes n = .ok b →
      cfg.formats.codec.checkArchivedRoot b = .ok n)
    (h : Inv cfg.formats.codec s) (hop : op.Acquires)
    (hbuild : BuildsThroughStore cfg.formats.codec s.service op)
    (hstep : step cfg s op = some t) : Inv cfg.formats.codec t := by
  have hwrites : ∀ store, Writes cfg.formats.codec s.service.store store →
      Counted cfg.formats.codec s.bound (s.imported ∪ ∅) store := by
    intro store hw
    rw [Finset.union_empty]
    exact hw.keeps (P := Counted cfg.formats.codec s.bound s.imported)
      (fun _ _ hw h => h.write hreads hw) h.counted
  rw [Ledger.step] at hstep
  split at hstep
  · cases hstep
  rename_i r hr
  cases hstep
  cases op with
  | pullImage req order seeds fuel =>
    rw [reply] at hr
    split at hr
    · obtain ⟨store, hw, hb⟩ := pullImage_binds hr
      exact h.binds (hwrites store hw) hb
    · cases hr
  | buildImage built store tag push =>
    cases hr
    exact h.binds (hwrites store hbuild) (buildImage_binds built store tag push)
  | importImage archive =>
    cases hr
    have hb : Binds (s.service.importImage cfg archive) (DagTar.importDagFromTar
        cfg.formats.codec cfg.manifestJson s.service.store archive).2 :=
      importImage_binds archive
    have himp := Imports.importWrites h.counted (DagTar.importDagFromTar_writes
      cfg.formats.codec cfg.manifestJson s.service.store archive)
    refine h.binds ?_ hb
    rw [importedBy, newNodes_binds hb]
    exact himp.counted
  | commitImage fuel src rootfs architecture os tag => exact hop.elim
  | removeImage rootDigest => exact hop.elim

theorem inv_of_run (hreads : ∀ n b, cfg.formats.codec.toBytes n = .ok b →
      cfg.formats.codec.checkArchivedRoot b = .ok n) {ops : List Op}
    {workloads : Finmap fun _ : Str => WorkloadRow} (hops : ∀ op ∈ ops, op.Acquires)
    (hbuilds : Schedule.Meets (Ledger.step cfg)
      (fun s op => BuildsThroughStore cfg.formats.codec s.service op) (start workloads) ops)
    (hrun : Schedule.run (Ledger.step cfg) (start workloads) ops = some s) :
    Inv cfg.formats.codec s := by
  refine Schedule.run_inv (Inv cfg.formats.codec)
    (fun s op => BuildsThroughStore cfg.formats.codec s.service op ∧ op ∈ ops) ?_
    (inv_start _ workloads) hbuilds.mem hrun
  intro s op t hs hok hstep
  exact hs.step hreads (hops op hok.2) hok.1 hstep

end Ledger

end Pullrun
