import Pullrun.Oci.Converter
import Pullrun.Oci.Materializer

/-!
# What the converter's writes leave in the store

The converter stores nodes one after the other, and the walkers read them later, from the same store
or from one that has grown since.
-/

namespace Pullrun

/-- What `rkyv` writes it reads, and the hash has no collisions and does not hit the sentinel. -/
structure Codec.Lawful (c : Codec) : Prop where
  reads : ∀ n b, c.toBytes n = .ok b → c.checkArchivedRoot b = .ok n
  collisionFree : ∀ n m b b', c.toBytes n = .ok b → c.toBytes m = .ok b' →
    c.sha256 b = c.sha256 b' → n = m
  nonZero : ∀ n b, c.toBytes n = .ok b → c.sha256 b ≠ zeroDigest

namespace MmapStore

variable {c : Codec} {s s' s'' : MmapStore} {d : Digest} {n m : DagNode} {data : Bytes}

def Holds (c : Codec) (s : MmapStore) (d : Digest) (n : DagNode) : Prop :=
  ∃ b, c.toBytes n = .ok b ∧ c.sha256 b = d ∧ s.disk.nodes.lookup d = some b

/-- Every node file is the serialized form of a node, under its digest; every blob file holds the
    data of the blob node with its digest; the cache agrees with the files. -/
structure Sound (c : Codec) (s : MmapStore) : Prop where
  coherent : s.Coherent
  nodes : ∀ d b, s.disk.nodes.lookup d = some b → ∃ n, c.toBytes n = .ok b ∧ c.sha256 b = d
  blobs : ∀ d b, s.disk.blobs.lookup d = some b →
    ∃ bytes, c.toBytes (.blob b) = .ok bytes ∧ c.sha256 bytes = d

structure Grown (s s' : MmapStore) : Prop where
  nodes : ∀ d b, s.disk.nodes.lookup d = some b → s'.disk.nodes.lookup d = some b
  blobs : ∀ d b, s.disk.blobs.lookup d = some b → s'.disk.blobs.lookup d = some b

theorem Grown.refl (s : MmapStore) : Grown s s := ⟨fun _ _ h => h, fun _ _ h => h⟩

theorem Grown.trans (h : Grown s s') (h' : Grown s' s'') : Grown s s'' :=
  ⟨fun d b hb => h'.nodes d b (h.nodes d b hb), fun d b hb => h'.blobs d b (h.blobs d b hb)⟩

theorem Holds.mono (h : Holds c s d n) (hg : Grown s s') : Holds c s' d n := by
  obtain ⟨b, hb, hd, hl⟩ := h
  exact ⟨b, hb, hd, hg.nodes d b hl⟩

theorem sound_openOn_empty (c : Codec) (m1 m2 : Option ℕ) : Sound c (openOn .empty m1 m2) where
  coherent := coherent_openOn _ _ _
  nodes d b h := by rw [openOn, Disk.empty, Finmap.lookup_empty] at h; cases h
  blobs d b h := by rw [openOn, Disk.empty, Finmap.lookup_empty] at h; cases h

/-! ## Reading -/

section

variable (hc : c.Lawful)
include hc

theorem Holds.getArchived (hs : Sound c s) (h : Holds c s d n) : (s.getArchived c d).1 = .ok n := by
  obtain ⟨b, hb, -, hl⟩ := h
  rw [(getArchived_coherent c hs.coherent d).2.2, hl]
  simp only [hc.reads n b hb]

theorem Holds.ne_zero (h : Holds c s d n) : d ≠ zeroDigest := by
  obtain ⟨b, hb, rfl, -⟩ := h
  exact hc.nonZero n b hb

theorem Sound.zero (hs : Sound c s) : s.disk.nodes.lookup zeroDigest = none := by
  cases hl : s.disk.nodes.lookup zeroDigest with
  | none => rfl
  | some bytes =>
    obtain ⟨n, hn, hd⟩ := hs.nodes _ _ hl
    exact absurd hd (hc.nonZero n bytes hn)

theorem Holds.content (hs : Sound c s) (h : Holds c s d (.blob data)) : s.content c d = some data := by
  unfold MmapStore.content
  cases hl : s.disk.blobs.lookup d with
  | none => simp only [h.getArchived hc hs]; rfl
  | some b =>
    obtain ⟨bytes, hbytes, hd⟩ := hs.blobs d b hl
    obtain ⟨b', hb', hd', -⟩ := h
    have heq := hc.collisionFree _ _ _ _ hbytes hb' (hd.trans hd'.symm)
    have hdata := congrArg DagNode.inlineData heq
    exact congrArg some hdata

theorem Holds.view_getArchived (hs : Sound c s) (h : Holds c s d n) : (s.view c).getArchived d = .ok n :=
  h.getArchived hc hs

end

/-! ## Writing -/

theorem incrementEdges_files (k : Disk) (edges : List Digest) :
    (incrementEdges k edges).nodes = k.nodes ∧ (incrementEdges k edges).blobs = k.blobs := by
  induction edges generalizing k with
  | nil => exact ⟨rfl, rfl⟩
  | cons e edges ih =>
    obtain ⟨hn, hb⟩ := ih (k.incrementRefcount e).2
    rw [incrementEdges]
    exact ⟨hn.trans (Disk.setRefcount_nodes _ _ _), hb.trans (Disk.setRefcount_blobs _ _ _)⟩

theorem putBlocking_spec (hc : c.Lawful) (hs : Sound c s)
    (h : s.putBlocking c n = (.ok d, s')) :
    Sound c s' ∧ Grown s s' ∧ Holds c s' d n ∧ s'.disk.blobs = s.disk.blobs := by
  unfold putBlocking at h
  split at h
  · cases h
  rename_i bytes hb
  dsimp only at h
  split at h
  · rename_i hex
    cases h
    obtain ⟨old, hold⟩ := Option.isSome_iff_exists.mp hex
    obtain ⟨m, hm, hd⟩ := hs.nodes _ _ hold
    have hmn := hc.collisionFree m n old bytes hm hb hd
    subst hmn
    exact ⟨hs, Grown.refl s, ⟨old, hm, hd, hold⟩, rfl⟩
  · rename_i hex
    cases h
    have hnone : s.disk.nodes.lookup (c.sha256 bytes) = none := by
      rw [Disk.hasNode, Option.isSome_iff_ne_none, not_not] at hex
      exact hex
    obtain ⟨hn, hbl⟩ := incrementEdges_files (s.disk.writeNode (c.sha256 bytes) bytes) n.edges
    have hlook : ∀ e, (incrementEdges (s.disk.writeNode (c.sha256 bytes) bytes)
        n.edges).nodes.lookup e =
          if e = c.sha256 bytes then some bytes else s.disk.nodes.lookup e := by
      intro e
      rw [hn]
      exact FileMap.lookup_insert_if _ _ _ _
    refine ⟨⟨?_, ?_, ?_⟩, ⟨?_, ?_⟩, ⟨bytes, hb, rfl, ?_⟩, hbl⟩
    · have hcoh := Cache.Coherent.write hs.coherent hnone bytes
      unfold Coherent
      simp only [hn]
      exact hcoh
    · intro e b he
      simp only [hlook] at he
      split at he
      · rename_i heq
        cases he
        exact ⟨n, hb, heq.symm⟩
      · exact hs.nodes e b he
    · intro e b he
      simp only [hbl] at he
      exact hs.blobs e b he
    · intro e b he
      simp only [hlook]
      split
      · rename_i heq
        rw [heq, hnone] at he
        cases he
      · exact he
    · intro e b he
      simp only [hbl]
      exact he
    · simp only [hlook, if_pos]

theorem putBlobBlocking_spec (hs : Sound c s) (h : Holds c s d (.blob data)) :
    Sound c (s.putBlobBlocking d data) ∧ Grown s (s.putBlobBlocking d data) := by
  unfold putBlobBlocking
  split
  · exact ⟨hs, Grown.refl s⟩
  · rename_i hno
    have hnone : s.disk.blobs.lookup d = none := by
      rw [Disk.hasBlob, Option.isSome_iff_ne_none, not_not] at hno
      exact hno
    refine ⟨⟨hs.coherent, hs.nodes, ?_⟩, fun _ _ h => h, ?_⟩
    · intro e b he
      have he' : Finmap.lookup e (s.disk.blobs.insert d data) = some b := he
      rw [FileMap.lookup_insert_if] at he'
      split at he'
      · rename_i heq
        cases he'
        obtain ⟨bytes, hb, hd, -⟩ := h
        exact ⟨bytes, hb, heq ▸ hd⟩
      · exact hs.blobs e b he'
    · intro e b he
      change Finmap.lookup e (s.disk.blobs.insert d data) = some b
      rw [FileMap.lookup_insert_if]
      split
      · rename_i heq
        rw [heq, hnone] at he
        cases he
      · exact he

end MmapStore

end Pullrun
