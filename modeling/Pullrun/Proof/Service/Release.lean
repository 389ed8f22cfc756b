import Pullrun.Proof.Service.Ledger
import Pullrun.Service.Sample

/-!
# What `remove_image` releases

Every request that binds a digest takes a reference to it.
-/

namespace Pullrun

open MmapStore Sample RefGraph Option Multiset Schedule

namespace RuntimeService

def HeldByTag (c : Codec) (s t : RuntimeService) (v : Digest) : Prop :=
  ∃ r, t.Tagged r ∧ (s.store.disk.graph c).Reach r v

def HeldFromOutside (c : Codec) (s : RuntimeService) (d v : Digest) : Prop :=
  ∃ p, s.store.disk.hasNode p = true ∧ ¬ (s.store.disk.graph c).Reach d p ∧
    (s.store.disk.graph c).Reach p v

/-- What is left of the image `d` of `s`: no node that nothing else holds, and a count of the root
    that is the number of edges to it. -/
structure ImageReleased (c : Codec) (s t : RuntimeService) (d : Digest) : Prop where
  gone : ∀ v, (s.store.disk.graph c).Reach d v → ¬ HeldByTag c s t v → ¬ HeldFromOutside c s d v →
    t.store.disk.hasNode v = false
  count : t.store.disk.getRefcount d = (t.store.disk.graph c).inDeg d

variable {s : RuntimeService} {key : Str}

theorem reply_removeImage {cfg : RuntimeConfig} {d : Digest}
    (hkey : Digest.fromHex key = .ok d) (htag : key ∈ s.imageTags) (hfree : ¬ s.inUse key) :
    s.reply cfg (.removeImage key) =
      some ⟨.ok key, (s.store.removeTag cfg.formats.codec d).2, some (.remove key)⟩ := by
  have hlookup : ¬ s.imageTags.lookup key = none := fun h => Finmap.lookup_eq_none.mp h htag
  rw [reply, removeImage, hkey]
  simp only [if_neg hlookup, if_neg hfree]

theorem Tagged.remove {r : Reply} {d e : Digest}
    (heffect : r.effect = some (.remove key)) (hkey : Digest.fromHex key = .ok d) (hne : e ≠ d)
    (h : s.Tagged e) : (s.after r).Tagged e := by
  obtain ⟨k, hk, hd⟩ := h
  refine ⟨k, ?_, hd⟩
  change k ∈ s.imageTags.apply r.effect
  rw [heffect]
  refine Finmap.mem_erase.mpr ⟨?_, hk⟩
  rintro rfl
  rw [hkey, Except.ok.injEq] at hd
  exact hne hd.symm

end RuntimeService

open RuntimeService

namespace Ledger

variable {cfg : RuntimeConfig} {s : Ledger} {key : Str} {d : Digest}

theorem Inv.removeTag {c : Codec} (h : Inv c s) (hd : d ∈ s.bound) :
    ∃ s', (s.service.store.removeTag c d).2 = s' ∧
      (s'.disk.graph c).Light ((s.bound.erase d).count ·) ∧
      s'.disk.getRefcount d ≤ s.service.store.disk.getRefcount d - 1 ∧
      (0 < s.service.store.disk.getRefcount d - 1 ∧
        s'.disk.graph c = (s.service.store.disk.graph c).setRc d
          (s.service.store.disk.getRefcount d - 1) ∨
      s.service.store.disk.getRefcount d - 1 = 0 ∧
        ∃ seen, RefGraph.Swept ((s.service.store.disk.graph c).setRc d
          (s.service.store.disk.getRefcount d - 1)) d [] seen (s'.disk.graph c)) := by
  obtain ⟨rc, hrc⟩ : ∃ rc, s.service.store.disk.getRefcount d - 1 = rc := ⟨_, rfl⟩
  have hdrop : DropKeeps fun G => G.Light ((s.bound.erase d).count ·) ∧ G.rc d ≤ rc := by
    intro G v hG hv _
    refine ⟨hG.1.drop hv, ?_⟩
    change (if d = v then 0 else G.rc d - (G.out v).count d) ≤ rc
    have := hG.2
    split <;> omega
  have hlight : ((s.service.store.disk.graph c).setRc d rc).Light ((s.bound.erase d).count ·) := by
    intro u
    have hu := h.counted.getRefcount_eq u
    rw [setRc_rc, setRc_inDeg]
    dsimp only
    by_cases hud : u = d
    · subst hud
      rw [if_pos rfl, count_erase_self]
      have := count_pos.mpr hd
      omega
    · rw [if_neg hud, count_erase_of_ne hud, Disk.graph_rc]
      omega
  have hrcd : ((s.service.store.disk.graph c).setRc d rc).rc d = rc := by
    rw [setRc_rc, if_pos rfl]
  have hG0 : (s.service.store.disk.graph c).setRc d (s.service.store.disk.getRefcount d - 1) =
      (s.service.store.disk.graph c).setRc d rc := by rw [hrc]
  obtain ⟨freed, s', heq, -, -, -, ⟨hl, hle⟩, hend⟩ :=
    removeTag_swept hdrop h.counted.coherent h.counted.valid hG0 ⟨hlight, hrcd.le⟩
  rw [hrcd] at hend
  rw [hrc]
  exact ⟨s', by rw [heq], hl, hle, hend⟩

/-- **The image is released if and only if the requests that have bound it outnumber the uncounted edges
to it by one.** -/
theorem released_iff (hreads : ∀ n b, cfg.formats.codec.toBytes n = .ok b →
      cfg.formats.codec.checkArchivedRoot b = .ok n) {ops : List Op}
    {workloads : Finmap fun _ : Str => WorkloadRow} (hops : ∀ op ∈ ops, op.Acquires)
    (hbuilds : Schedule.Meets (step cfg)
      (fun s op => BuildsThroughStore cfg.formats.codec s.service op) (start workloads) ops)
    (hrun : Schedule.run (step cfg) (start workloads) ops = some s)
    (hac : (s.service.store.disk.graph cfg.formats.codec).Acyclic)
    (hkey : Digest.fromHex key = .ok d) (htag : key ∈ s.service.imageTags)
    (hfree : ¬ s.service.inUse key) :
    ∃ r, s.service.reply cfg (.removeImage key) = some r ∧ r.result = .ok key ∧
      (ImageReleased cfg.formats.codec s.service (s.service.after r) d ↔
        s.bound.count d
          = 1 + uncounted cfg.formats.codec s.service.store.disk s.imported d) := by
  have hinv := inv_of_run hreads hops hbuilds hrun
  have hd : d ∈ s.bound := (hinv.tagged d).mp ⟨key, htag, hkey⟩
  have hpos := count_pos.mpr hd
  have hcount := hinv.counted.getRefcount_eq d
  have hle := hinv.counted.uncounted_le d
  obtain ⟨s', hs', hlight, hrc', hend⟩ := hinv.removeTag hd
  refine ⟨_, reply_removeImage hkey htag hfree, rfl, ?_⟩
  rw [hs']
  -- a node that lists the root of an image is no part of it, and holds all of it
  have hheld : 0 < (s.service.store.disk.graph cfg.formats.codec).inDeg d → ∀ v,
      (s.service.store.disk.graph cfg.formats.codec).Reach d v →
      HeldFromOutside cfg.formats.codec s.service d v := by
    intro hin v hv
    obtain ⟨p, hp⟩ := inDeg_pos_iff.mp hin
    exact ⟨p, Disk.mem_graph_stored.mp hp.mem_stored, hac.parent_not_reach hp,
      Reach.trans (Relation.ReflTransGen.single hp) hv⟩
  rcases hend with ⟨hleft, hgraph⟩ | ⟨hlast, seen, hswept⟩
  · -- the root is still counted, and nothing is deleted
    have hcount' : s'.disk.getRefcount d = s.service.store.disk.getRefcount d - 1 := by
      rw [← Disk.graph_rc cfg.formats.codec, hgraph, setRc_rc, if_pos rfl]
    have hin' : (s'.disk.graph cfg.formats.codec).inDeg d
        = (s.service.store.disk.graph cfg.formats.codec).inDeg d := by
      rw [hgraph, setRc_inDeg]
    constructor
    · intro hrel
      have := hrel.count
      change s'.disk.getRefcount d = (s'.disk.graph cfg.formats.codec).inDeg d at this
      omega
    · intro hbal
      refine ⟨fun v hv _ hout => absurd (hheld (by omega) v hv) hout, ?_⟩
      change s'.disk.getRefcount d = (s'.disk.graph cfg.formats.codec).inDeg d
      omega
  · -- the last reference is gone: there was one, and no edge to the root was counted
    have hin' : (s'.disk.graph cfg.formats.codec).inDeg d
        = (s.service.store.disk.graph cfg.formats.codec).inDeg d := hswept.inDeg_root hac
    constructor
    · intro hrel
      have := hrel.count
      change s'.disk.getRefcount d = (s'.disk.graph cfg.formats.codec).inDeg d at this
      omega
    · intro hbal
      refine ⟨fun v hv htagged hout => ?_, ?_⟩
      · change s'.disk.hasNode v = false
        by_contra hkept
        rw [Bool.not_eq_false] at hkept
        obtain ⟨t, ht, hreach⟩ := hswept.kept hlight hac (Disk.mem_graph_stored.mpr hkept) hv
        rcases ht with hw | ⟨hstored, hnot⟩
        · have ht : t ∈ s.bound.erase d := count_pos.mp hw
          have hne : t ≠ d := by
            rintro rfl
            rw [count_erase_self] at hw
            omega
          have htag' := (hinv.tagged t).mpr (mem_of_mem_erase ht)
          exact htagged ⟨t, htag'.remove rfl hkey hne, hreach⟩
        · exact hout ⟨t, FileMap.mem_keys_iff.mp hstored, hnot, hreach⟩
      · change s'.disk.getRefcount d = (s'.disk.graph cfg.formats.codec).inDeg d
        omega

/-! ## Two runs -/

def mirrored : RuntimeConfig := { Sample.runtime none with registry := fun _ => .ok Sample.oneFile }

def pullA : Op := .pullImage { imageRef := ['a'] } [] {} 4
def pullB : Op := .pullImage { imageRef := ['b'] } [⟨Sample.oneFileHex, ['a']⟩] {} 4
def removeIt : Op := .removeImage Sample.oneFileHex

/-- The manifest is above its layer, the layer above the tree, the tree above the file. -/
def oneFileRank (d : Digest) : ℕ :=
  if d = Sample.oneFileD then 3 else if d = Sample.fLayerD then 2
  else if d = Sample.fTreeD then 1 else 0

theorem released_after_one_pull :
    ∃ s r, Schedule.run (step mirrored) (start ∅) [pullA] = some s ∧
      s.service.reply mirrored removeIt = some r ∧ r.result = .ok Sample.oneFileHex ∧
      ImageReleased Sample.formats.codec s.service (s.service.after r) Sample.oneFileD := by
  obtain ⟨s, hrun, hcount, hrank, htag, hfree⟩ :
      ∃ s, run (step mirrored) (start ∅) [pullA] = some s ∧
        s.bound.count oneFileD =
          1 + uncounted formats.codec s.service.store.disk s.imported oneFileD ∧
        (∀ p ∈ s.service.store.disk.nodes.keys,
          ∀ q ∈ s.service.store.disk.edgesOf formats.codec p, oneFileRank q < oneFileRank p) ∧
        (s.service.imageTags.lookup oneFileHex).isSome ∧ ¬ s.service.inUse oneFileHex := by
    decide +kernel
  have hac : (s.service.store.disk.graph formats.codec).Acyclic :=
    acyclic_of_rank oneFileRank hrank
  have hkey : Digest.fromHex oneFileHex = .ok oneFileD := Digest.fromHex_asHex _
  have hbuilds : Schedule.Meets (step mirrored)
      (fun s op => BuildsThroughStore mirrored.formats.codec s.service op) (start ∅) [pullA] :=
    Schedule.meets_of_forall fun s op hop => by rw [List.mem_singleton.mp hop]; trivial
  have hreads : ∀ n b, mirrored.formats.codec.toBytes n = .ok b →
      mirrored.formats.codec.checkArchivedRoot b = .ok n := formats_codec.reads
  obtain ⟨r, hr, hok, hiff⟩ := released_iff hreads
    (by intro op hop; rw [List.mem_singleton.mp hop]; trivial) hbuilds hrun hac hkey
    (Finmap.lookup_isSome.mp htag) hfree
  exact ⟨s, r, hrun, hr, hok, hiff.mpr hcount⟩

theorem two_pulls_leak :
    ∃ r₁ r₂ r₃, RuntimeService.start.reply mirrored pullA = some r₁ ∧
      (RuntimeService.start.after r₁).reply mirrored pullB = some r₂ ∧
      ((RuntimeService.start.after r₁).after r₂).reply mirrored removeIt = some r₃ ∧
      r₁.result = .ok Sample.oneFileHex ∧ r₂.result = .ok Sample.oneFileHex ∧
      r₃.result = .ok Sample.oneFileHex ∧ r₃.store.disk.hasNode Sample.oneFileD = true ∧
      ¬ ImageReleased Sample.formats.codec ((RuntimeService.start.after r₁).after r₂)
        (((RuntimeService.start.after r₁).after r₂).after r₃) Sample.oneFileD := by
  obtain ⟨r₁, h₁, hok₁, r₂, h₂, hok₂, r₃, h₃, hok₃, hhas, hcount⟩ :
      ∃ r₁, RuntimeService.start.reply mirrored pullA = some r₁ ∧ r₁.result = .ok oneFileHex ∧
      ∃ r₂, (RuntimeService.start.after r₁).reply mirrored pullB = some r₂ ∧
        r₂.result = .ok oneFileHex ∧
      ∃ r₃, ((RuntimeService.start.after r₁).after r₂).reply mirrored removeIt = some r₃ ∧
        r₃.result = .ok oneFileHex ∧ r₃.store.disk.hasNode oneFileD = true ∧
        r₃.store.disk.getRefcount oneFileD ≠ (r₃.store.disk.graph formats.codec).inDeg oneFileD := by
    decide +kernel
  exact ⟨r₁, r₂, r₃, h₁, h₂, h₃, hok₁, hok₂, hok₃, hhas, fun hrel => hcount hrel.count⟩

end Ledger

end Pullrun
