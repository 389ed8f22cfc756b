import Pullrun.Lib.Schedule
import Pullrun.Proof.Oci.Reference
import Pullrun.Store.Mmap
import Pullrun.Store.Sample

/-!
# Layers from peers

`pullrun-sync/src/block_sync.rs` and `sync_puller.rs`, with `verify_oci` and `fetch_blob` of the puller.
A node serves its blobs in chunks of a megabyte, takes blobs that are pushed to it, and pulls the layers
of an image from its own store, from peers, or from the registry, in this order.

What a peer or the registry sends is arbitrary and an argument: a peer cannot be reached, or it sends a
list of messages, of which a broken one is `none`. Every stream ends or breaks off: the client waits for the
next message without a timeout, so that a peer that accepts the call and then stays silent holds it up for
good. The metrics are left out, and so is the pull of a puller without a Bloom cache, which asks no peer and
fetches each layer as `fetchBlob` does.
-/

namespace Pullrun.Sync

open List MmapStore

/-- `BlobChunk`. The offset has 32 bits; no receiver looks at it. -/
structure BlobChunk where
  digest : Str
  data : Bytes
  offset : BitVec 32
  isFinal : Bool
deriving DecidableEq

/-- `CHUNK_SIZE` -/
def chunkSize : ℕ := 1024 * 1024

/-- The `while` loop of `get_blobs`, from `offset` on. -/
def chunks (digest : Str) (data : Bytes) (offset : ℕ) : List BlobChunk :=
  if offset < data.length then
    let stop := min (offset + chunkSize) data.length
    ⟨digest, (data.drop offset).take (stop - offset), .ofNat 32 offset, data.length ≤ stop⟩ ::
      chunks digest data stop
  else []
termination_by data.length - offset
decreasing_by simp only [chunkSize]; omega

/-- `get_blobs`: what is streamed for the listed digests. One that cannot be parsed is passed over, one
    that is not stored is answered with an empty chunk. -/
def getBlobs : MmapStore → List Str → List BlobChunk × MmapStore
  | s, [] => ([], s)
  | s, digest :: rest =>
    match Digest.fromHex digest with
    | .error _ => getBlobs s rest
    | .ok d =>
      let (sent, s) :=
        match s.getBlob d with
        | (.ok data, s) => (chunks digest data 0, s)
        | (.error _, s) => ([⟨digest, [], 0, true⟩], s)
      let (later, s) := getBlobs s rest
      (sent ++ later, s)

/-- What comes back from a peer, if it can be reached: the messages up to the end of its stream, or up to the
    one that is broken. A stream that neither ends nor breaks is not a reply. -/
abbrev Reply := Option (List (Option BlobChunk))

/-- The loop of `try_fetch_from_peer`, with what it has collected. -/
def collectChunks (collected : Bytes) : List (Option BlobChunk) → Option Bytes
  | [] => if collected = [] then none else some collected
  | none :: _ => none
  | some chunk :: rest =>
    let collected := collected ++ chunk.data
    if chunk.isFinal then if collected = [] then none else some collected
    else collectChunks collected rest

def tryFetchFromPeer (reply : Reply) : Option Bytes := reply.bind (collectChunks [])

/-- The loop over the candidates: the first blob that has the digest. -/
def fetchFromPeers (c : Codec) (d : Digest) : List Reply → Option Bytes
  | [] => none
  | reply :: rest =>
    match tryFetchFromPeer reply with
    | none => fetchFromPeers c d rest
    | some data => if c.sha256 data ≠ d then fetchFromPeers c d rest else some data

inductive SyncError
  | invalidDigest (digest : Str) (e : Digest.ParseError)
  | registry (why : String)
  | digestMismatch (digest : Str)
deriving DecidableEq

/-- `verify_oci`: does it accept the data? A digest of an unknown algorithm is passed through. -/
def verifyOci (c : Codec) (sha512 : Bytes → Bytes) (data : Bytes) (claimed : Str) : Bool :=
  match splitOnce ':' claimed with
  | none => false
  | some (algo, encoded) =>
    if algo = "sha256".toList then (c.sha256 data).asHex == encoded
    else if algo = "sha512".toList then Digest.hexEncode (sha512 data) == encoded
    else true

/-- `fetch_blob`, given the decoded body. -/
def fetchBlob (c : Codec) (sha512 : Bytes → Bytes) (body : Except String Bytes) (digest : Str) :
    Except SyncError Bytes :=
  match body with
  | .error why => .error (.registry why)
  | .ok data => if verifyOci c sha512 data digest then .ok data else .error (.digestMismatch digest)

/-- What the outside answers to the fetch of one layer. -/
structure Answers where
  peers : List Reply
  registry : Except String Bytes

/-- `fetch_blob_with_sync` -/
def fetchBlobWithSync (c : Codec) (sha512 : Bytes → Bytes) (s : MmapStore) (digest : Str)
    (w : Answers) : Except SyncError Bytes × MmapStore :=
  match Digest.fromHex digest with
  | .error e => (.error (.invalidDigest digest e), s)
  | .ok d =>
    match if s.exists d then s.getBlob d else (.error (.notFound d), s) with
    | (.ok data, s) => (.ok data, s)
    | (.error _, s) =>
      match fetchFromPeers c d w.peers with
      | some data => (.ok data, s.putBlobBlocking d data)
      | none =>
        match fetchBlob c sha512 w.registry digest with
        | .error e => (.error e, s)
        | .ok data => (.ok data, s.putBlobBlocking d data)

/-- The loop of `pull` over the layers of the manifest. -/
def pullLayers (c : Codec) (sha512 : Bytes → Bytes) :
    MmapStore → List (Str × Answers) → Except SyncError (List (Str × Bytes)) × MmapStore
  | s, [] => (.ok [], s)
  | s, (digest, w) :: rest =>
    match fetchBlobWithSync c sha512 s digest w with
    | (.error e, s) => (.error e, s)
    | (.ok data, s) =>
      match pullLayers c sha512 s rest with
      | (.error e, s) => (.error e, s)
      | (.ok blobs, s) => (.ok ((digest, data) :: blobs), s)

/-- One turn of the loop of `sync_blobs`. -/
def receive (c : Codec) (s : MmapStore) (digest : Str) (data : Bytes) : MmapStore :=
  if data = [] then s
  else
    match Digest.fromHex digest with
    | .error _ => s
    | .ok d => if c.sha256 data ≠ d then s else s.putBlobBlocking d data

/-- What happens to the store of a node: it pulls, it is pushed to, it serves. -/
inductive Act
  | pull (layers : List (Str × Answers))
  | receive (digest : Str) (data : Bytes)
  | serve (digests : List Str)

def step (c : Codec) (sha512 : Bytes → Bytes) (s : MmapStore) : Act → Option MmapStore
  | .pull layers => some (pullLayers c sha512 s layers).2
  | .receive digest data => some (receive c s digest data)
  | .serve digests => some (getBlobs s digests).2

/-! ## A blob comes over whole -/

variable {c : Codec} {sha512 : Bytes → Bytes} {s s' : MmapStore} {d : Digest} {digest : Str}
  {data : Bytes} {w : Answers}

theorem collectChunks_chunks (digest : Str) (rest : List (Option BlobChunk)) (offset : ℕ) (collected : Bytes)
    (hlt : offset < data.length) (hcol : collected = data.take offset) :
    collectChunks collected ((chunks digest data offset).map some ++ rest) = some data := by
  fun_induction chunks digest data offset generalizing collected with
  | case1 offset hlt' stop ih =>
    have hstop : offset ≤ stop := by omega
    have hnext : collected ++ (data.drop offset).take (stop - offset) = data.take stop := by
      rw [hcol, ← take_add, Nat.add_sub_cancel' hstop]
    rw [map_cons, cons_append, collectChunks]
    simp only [hnext]
    by_cases hend : data.length ≤ stop
    · have hne : data ≠ [] := by
        rintro rfl
        simp at hlt
      simp [hend, take_of_length_le hend, hne]
    · simp only [hend, decide_false, Bool.false_eq_true, if_false]
      exact ih (data.take stop) (by omega) rfl
  | case2 offset hle => exact absurd hlt hle

/-- **One honest peer is enough.** -/
theorem fetchFromPeers_honest (before after : List Reply) (hd : Digest.fromHex digest = .ok d)
    (hget : (s.getBlob d).1 = .ok data) (hne : data ≠ []) (hsha : c.sha256 data = d) :
    ∃ got, fetchFromPeers c d (before ++ some ((getBlobs s [digest]).1.map some) :: after) = some got ∧
      c.sha256 got = d := by
  have hserved : tryFetchFromPeer (some ((getBlobs s [digest]).1.map some)) = some data := by
    have hsent : (getBlobs s [digest]).1 = chunks digest data 0 := by
      rw [getBlobs, hd]
      rcases hb : s.getBlob d with ⟨e | b, s1⟩
      · rw [hb] at hget
        cases hget
      · rw [hb] at hget
        cases hget
        simp [getBlobs, hb]
    rw [hsent]
    have hcollect := collectChunks_chunks digest [] 0 [] (length_pos_of_ne_nil hne) rfl
    rwa [append_nil] at hcollect
  induction before with
  | nil => exact ⟨data, by simp [fetchFromPeers, hserved, hsha], hsha⟩
  | cons reply before ih =>
    rw [cons_append, fetchFromPeers]
    split
    · exact ih
    · rename_i got _
      split
      · exact ih
      · rename_i hgot
        exact ⟨got, rfl, not_not.mp hgot⟩

def leafBytes : Bytes := Codec.archive Sample.leaf

def serving : MmapStore := MmapStore.new.putBlobBlocking Sample.leafD leafBytes

/-- The first candidate lies, and the second has the blob. -/
theorem honest_after_liar : ∃ got,
    fetchFromPeers Sample.codec Sample.leafD ([some [some ⟨[], [0], 0, true⟩]] ++
      some ((getBlobs serving [Sample.leafD.asHex]).1.map some) :: []) = some got ∧
      Sample.codec.sha256 got = Sample.leafD :=
  have hget : (serving.getBlob Sample.leafD).1 = .ok leafBytes := by decide +kernel
  fetchFromPeers_honest _ [] (Digest.fromHex_asHex _) hget (by decide) (by decide +kernel)

/-! ## Nothing false is taken in -/

/-- Every blob, on disk or mapped, has the digest it is kept under. -/
def Genuine (c : Codec) (s : MmapStore) : Prop :=
  ∀ d b, s.disk.blobs.lookup d = some b ∨ s.blobCache.entries.lookup d = some b → c.sha256 b = d

/-- A read returns, and leaves mapped, what was mapped or is on disk. -/
theorem read_from (k : Cache) (files : FileMap Bytes) (d : Digest) :
    (∀ b, (k.read files d).1 = some b → k.entries.lookup d = some b ∨ files.lookup d = some b) ∧
      ∀ e b, (k.read files d).2.entries.lookup e = some b →
        k.entries.lookup e = some b ∨ files.lookup e = some b := by
  fun_cases Cache.read k files d with
  | case1 b hb =>
    refine ⟨fun b' hb' => .inl (hb.trans hb'), fun e b' he => .inl ?_⟩
    exact Cache.evictLru_subset (k := { k with lru := k.lru.erase d ++ [d] }) he
  | case2 hb hf => exact ⟨nofun, fun e b' he => .inl he⟩
  | case3 hb b hf =>
    refine ⟨fun b' hb' => .inr (hf.trans hb'), fun e b' he => ?_⟩
    change Finmap.lookup e (k.evictLru.entries.insert d b) = some b' at he
    rw [FileMap.lookup_insert_if] at he
    split at he
    · rename_i hed
      exact .inr (hed ▸ hf.trans he)
    · exact .inl (Cache.evictLru_subset he)

theorem Genuine.getBlob (h : Genuine c s) (d : Digest) :
    Genuine c (s.getBlob d).2 ∧ ∀ data, (s.getBlob d).1 = .ok data → c.sha256 data = d := by
  obtain ⟨hval, hleft⟩ := read_from s.blobCache s.disk.blobs d
  fun_cases MmapStore.getBlob s d with
  | case1 b cache hr =>
    rw [hr] at hval hleft
    refine ⟨fun e b' he => h e b' ?_, fun data hdata => h d data ?_⟩
    · exact he.elim .inl fun he => (hleft e b' he).symm
    · injection hdata with hdata
      exact (hval data (congrArg some hdata)).symm
  | case2 cache hr =>
    rw [hr] at hleft
    refine ⟨fun e b' he => h e b' ?_, fun data hdata => by cases hdata⟩
    exact he.elim .inl fun he => (hleft e b' he).symm

theorem Genuine.putBlobBlocking (h : Genuine c s) (hsha : c.sha256 data = d) :
    Genuine c (s.putBlobBlocking d data) := by
  fun_cases MmapStore.putBlobBlocking s d data with
  | case1 => exact h
  | case2 =>
    intro e b he
    rcases he with he | he
    · change Finmap.lookup e (s.disk.blobs.insert d data) = some b at he
      rw [FileMap.lookup_insert_if] at he
      split at he
      · rename_i hed
        cases he
        exact hsha.trans hed.symm
      · exact h e b (.inl he)
    · exact h e b (.inr he)

theorem fetchFromPeers_sha {replies : List Reply} (h : fetchFromPeers c d replies = some data) :
    c.sha256 data = d := by
  fun_induction fetchFromPeers c d replies with
  | case1 => cases h
  | case2 reply rest hr ih => exact ih h
  | case3 reply rest got hr hsha ih => exact ih h
  | case4 reply rest got hr hsha =>
    cases h
    exact not_not.mp hsha

theorem hexDecodeFrom_colon {i : ℕ} {t : Str} {bs : Bytes}
    (h : Digest.hexDecodeFrom i t = .ok bs) : ':' ∉ t := by
  fun_induction Digest.hexDecodeFrom i t generalizing bs with
  | case1 => simp
  | case2 | case3 => cases h
  | case4 => cases h
  | case5 i hi lo rest b hb bs' hrest ih =>
    have hne : hi ≠ ':' ∧ lo ≠ ':' := by
      constructor <;> rintro rfl
      · simp [Digest.hexByte, show Digest.hexVal ':' = none by decide] at hb
      · cases hv : Digest.hexVal hi <;>
          simp [Digest.hexByte, hv, show Digest.hexVal ':' = none by decide] at hb
    simp [hne.1.symm, hne.2.symm, ih hrest]

theorem fromHex_asHex_colon (d : Digest) :
    Digest.fromHex (Digest.sha256Colon ++ d.asHex) = .ok d := by
  have hplain := Digest.fromHex_asHex d
  unfold Digest.fromHex at hplain ⊢
  rw [Digest.asHex, Digest.stripPrefix_hexEncode] at hplain
  rwa [Digest.stripPrefix_append]

/-- A digest that can be parsed is verified as SHA-256, or refused. -/
theorem sha_of_verifyOci (hd : Digest.fromHex digest = .ok d)
    (h : verifyOci c sha512 data digest = true) : c.sha256 data = d := by
  unfold verifyOci at h
  split at h
  · cases h
  rename_i algo encoded hsplit
  by_cases hpre : Digest.sha256Colon.isPrefixOf digest
  · obtain ⟨rest, rfl⟩ := isPrefixOf_iff_prefix.mp hpre
    have halgo : splitOnce ':' (Digest.sha256Colon ++ rest) = some ("sha256".toList, rest) :=
      splitOnce_append (a := "sha256".toList) (by decide)
    rw [hsplit] at halgo
    obtain ⟨rfl, rfl⟩ := Prod.mk.inj (Option.some.inj halgo)
    rw [if_pos rfl, beq_iff_eq] at h
    rw [← h, fromHex_asHex_colon] at hd
    exact Except.ok.inj hd
  · -- without the prefix all of the text is hex, and there is nothing to split at
    have hcolon : ':' ∈ digest := by
      rw [(splitOnce_eq_some hsplit).1]
      simp
    unfold Digest.fromHex Digest.stripPrefix Digest.hexDecode at hd
    rw [if_neg hpre, Option.getD_none] at hd
    split at hd
    · cases hd
    · rename_i bs hdec
      split at hdec
      · cases hdec
      · exact absurd hcolon (hexDecodeFrom_colon hdec)

theorem sha_of_fetchBlob {body : Except String Bytes} (hd : Digest.fromHex digest = .ok d)
    (h : fetchBlob c sha512 body digest = .ok data) : c.sha256 data = d := by
  unfold fetchBlob at h
  split at h
  · cases h
  · split at h
    · rename_i hv
      cases h
      exact sha_of_verifyOci hd hv
    · cases h

theorem Genuine.fetch {r : Except SyncError Bytes} (h : Genuine c s)
    (hfetch : fetchBlobWithSync c sha512 s digest w = (r, s')) :
    Genuine c s' ∧ ∀ data, r = .ok data → Digest.fromHex digest = .ok (c.sha256 data) := by
  have hlocal : ∀ d r s1, (if s.exists d then s.getBlob d else (.error (.notFound d), s)) = (r, s1) →
      Genuine c s1 ∧ ∀ data, r = .ok data → c.sha256 data = d := by
    intro d r s1 hr
    split at hr
    · have hget := h.getBlob d
      rwa [hr] at hget
    · cases hr
      exact ⟨h, nofun⟩
  have hstored : ∀ d s1 data, Genuine c s1 → Digest.fromHex digest = .ok d → c.sha256 data = d →
      Genuine c (s1.putBlobBlocking d data) ∧ ∀ data', Except.ok data = Except.ok (ε := SyncError) data' →
        Digest.fromHex digest = .ok (c.sha256 data') := by
    intro d s1 data hs1 hd hsha
    refine ⟨hs1.putBlobBlocking hsha, fun data' hdata => ?_⟩
    cases hdata
    rw [hd, hsha]
  revert hfetch
  fun_cases fetchBlobWithSync c sha512 s digest w with
  | case1 e hd =>
    rintro ⟨⟩
    exact ⟨h, nofun⟩
  | case2 d hd data s1 hr =>
    rintro ⟨⟩
    obtain ⟨hs1, hsha⟩ := hlocal d _ _ hr
    refine ⟨hs1, fun data' hdata => ?_⟩
    cases hdata
    rw [hd, hsha data rfl]
  | case3 d hd e s1 hr data hpeer =>
    rintro ⟨⟩
    exact hstored d s1 data (hlocal d _ _ hr).1 hd (fetchFromPeers_sha hpeer)
  | case4 d hd e s1 hr hpeer e' hreg =>
    rintro ⟨⟩
    exact ⟨(hlocal d _ _ hr).1, nofun⟩
  | case5 d hd e s1 hr hpeer data hreg =>
    rintro ⟨⟩
    exact hstored d s1 data (hlocal d _ _ hr).1 hd (sha_of_fetchBlob hd hreg)

theorem Genuine.pullLayers (h : Genuine c s) (sha512 : Bytes → Bytes) (layers : List (Str × Answers)) :
    Genuine c (pullLayers c sha512 s layers).2 ∧ ∀ blobs, (pullLayers c sha512 s layers).1 = .ok blobs →
      Forall₂ (fun layer blob => blob.1 = layer.1 ∧ Digest.fromHex layer.1 = .ok (c.sha256 blob.2))
        layers blobs := by
  fun_induction Sync.pullLayers c sha512 s layers with
  | case1 s => exact ⟨h, fun blobs hb => by cases hb; exact .nil⟩
  | case2 s digest w rest e s1 hr => exact ⟨(h.fetch hr).1, nofun⟩
  | case3 s digest w rest data s1 hr e s2 hrest ih =>
    have hl := ih (h.fetch hr).1
    rw [hrest] at hl
    exact ⟨hl.1, nofun⟩
  | case4 s digest w rest data s1 hr blobs s2 hrest ih =>
    obtain ⟨hs1, hdata⟩ := h.fetch hr
    have hl := ih hs1
    rw [hrest] at hl
    refine ⟨hl.1, fun blobs' hb => ?_⟩
    cases hb
    exact .cons ⟨rfl, hdata data rfl⟩ (hl.2 blobs rfl)

theorem Genuine.receive (h : Genuine c s) (digest : Str) (data : Bytes) :
    Genuine c (receive c s digest data) := by
  fun_cases Sync.receive c s digest data with
  | case1 | case2 | case3 => exact h
  | case4 _ d hd hsha => exact h.putBlobBlocking (not_not.mp hsha)

theorem Genuine.getBlobs (h : Genuine c s) (digests : List Str) : Genuine c (getBlobs s digests).2 := by
  induction digests generalizing s with
  | nil => exact h
  | cons digest rest ih =>
    rw [Sync.getBlobs]
    split
    · exact ih h
    · rename_i d _
      have hget := (h.getBlob d).1
      rcases hb : s.getBlob d with ⟨e | data, s1⟩
      · rw [hb] at hget
        exact ih hget
      · rw [hb] at hget
        exact ih hget

/-- **What is pulled has the digest it was asked for by**, whatever peers and registries have sent, then
    and before. -/
theorem pulled_genuine {acts : List Act} {layers : List (Str × Answers)} {blobs : List (Str × Bytes)}
    (h : Genuine c s) (hrun : Schedule.run (step c sha512) s acts = some s')
    (hpull : (pullLayers c sha512 s' layers).1 = .ok blobs) :
    Genuine c s' ∧ Forall₂ (fun layer blob =>
      blob.1 = layer.1 ∧ Digest.fromHex layer.1 = .ok (c.sha256 blob.2)) layers blobs := by
  have hs' : Genuine c s' := by
    refine Schedule.run_inv' (Genuine c) (fun s a s1 hs hstep => ?_) h hrun
    cases a with
    | pull layers => cases hstep; exact (hs.pullLayers sha512 layers).1
    | receive digest data => cases hstep; exact hs.receive digest data
    | serve digests => cases hstep; exact hs.getBlobs digests
  exact ⟨hs', (hs'.pullLayers sha512 layers).2 blobs hpull⟩

theorem genuine_new (c : Codec) : Genuine c .new := by
  rintro d b (h | h) <;> simp [MmapStore.new, openOn, Disk.empty, Cache.empty] at h

/-- A wrong blob is pushed; then a layer is pulled from a peer that lies, and from the registry. -/
theorem pulled_from_registry :
    (pullLayers Sample.codec id (receive Sample.codec .new Sample.leafD.asHex [0])
      [(Digest.sha256Colon ++ Sample.leafD.asHex, ⟨[some [some ⟨[], [0], 0, true⟩]], .ok leafBytes⟩)]).1 =
        .ok [(Digest.sha256Colon ++ Sample.leafD.asHex, leafBytes)] ∧
    Genuine Sample.codec (receive Sample.codec .new Sample.leafD.asHex [0]) := by
  have hpull : (pullLayers Sample.codec id (receive Sample.codec .new Sample.leafD.asHex [0])
      [(Digest.sha256Colon ++ Sample.leafD.asHex, ⟨[some [some ⟨[], [0], 0, true⟩]], .ok leafBytes⟩)]).1 =
        .ok [(Digest.sha256Colon ++ Sample.leafD.asHex, leafBytes)] := by decide +kernel
  have hrun : Schedule.run (step Sample.codec id) .new [.receive Sample.leafD.asHex [0]] =
      some (receive Sample.codec .new Sample.leafD.asHex [0]) := rfl
  exact ⟨hpull, (pulled_genuine (genuine_new _) hrun hpull).1⟩

end Pullrun.Sync
