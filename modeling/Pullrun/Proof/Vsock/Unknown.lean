import Pullrun.Proof.Vsock.Chunks

/-!
# Frames of unknown type

"Unknown tags in a received stream are skipped, not rejected", says the protocol. None of its four
readers does that: `read_frame`, `recv_frame` and the session of the Apple host return an error, and the
thread of the Apple host passes over the header alone and takes the payload for the next header.
-/

namespace Pullrun.Vsock

open List

/-! ## Streams with frames of unknown type -/

/-- A frame, or something that is delimited like one and has another type. -/
inductive Item
  | known (frame : Frame)
  | unknown (tyByte : UInt8) (payload : Bytes)
deriving DecidableEq

namespace Item

def Wf : Item → Prop
  | known frame => frame.Fits
  | unknown tyByte payload => FrameType.fromU8 tyByte = none ∧ payload.length ≤ maxPayload

instance : DecidablePred Wf := fun item =>
  match item with
  | known frame => inferInstanceAs (Decidable frame.Fits)
  | unknown tyByte payload =>
    inferInstanceAs (Decidable (FrameType.fromU8 tyByte = none ∧ payload.length ≤ maxPayload))

def bytes : Item → Bytes
  | known frame => encode frame
  | unknown tyByte payload => header (lenU32 payload) tyByte ++ payload

def frame? : Item → Option Frame
  | known frame => some frame
  | unknown .. => none

end Item

structure Deliver (debug : ProtocolError → Str) (grants : ℕ → ℕ) (turns : ℕ) (items : List Item) :
    Prop where
  host : Yields readFrame (.unexpectedEof .initHello) (items.filterMap Item.frame?)
    (items.flatMap Item.bytes)
  guest : Yields recvFrame .io (items.filterMap Item.frame?) (items.flatMap Item.bytes)
  session : runSession debug grants turns ⟨0, items.flatMap Item.bytes⟩
    = untilExit (items.filterMap Item.frame?)
  thread : runThread grants turns ⟨0, items.flatMap Item.bytes⟩
    = untilExit (items.filterMap Item.frame?)

/-! ## An unknown type is an error -/

theorem readFrame_unknown {tyByte : UInt8} {payload : Bytes} (h : (Item.unknown tyByte payload).Wf)
    (tail : Bytes) :
    readFrame ((Item.unknown tyByte payload).bytes ++ tail)
      = (.error (.error (.truncated .initHello 0 0)), payload ++ tail) := by
  obtain ⟨hty, hlen⟩ := h
  have hlt : payload.length < 2 ^ 32 := by
    unfold maxPayload at hlen
    omega
  rw [readFrame, Item.bytes, append_assoc, readExact_header]
  simp only [parseHeader_header, toNat_lenU32 hlt, hty]
  rw [if_neg (not_lt.mpr hlen)]

theorem known_of_yields : ∀ {items : List Item}, (∀ item ∈ items, item.Wf) →
    Yields readFrame (.unexpectedEof .initHello) (items.filterMap Item.frame?)
      (items.flatMap Item.bytes) →
    ∀ item ∈ items, item.frame?.isSome := by
  intro items
  induction items with
  | nil =>
    intro _ _ item hitem
    cases hitem
  | cons first items ih =>
    intro hwf hyields
    have hrest := fun item hitem => hwf item (mem_cons_of_mem first hitem)
    cases first with
    | known frame =>
      obtain ⟨rest, hread, hyields⟩ := hyields
      rw [flatMap_cons, Item.bytes, readFrame_encode (hwf _ mem_cons_self)] at hread
      cases hread
      intro item hitem
      rcases mem_cons.mp hitem with rfl | hitem
      · rfl
      · exact ih hrest hyields item hitem
    | unknown tyByte payload =>
      -- The first call returns an error, whatever is to be delivered.
      have hread := readFrame_unknown (hwf _ mem_cons_self) (items.flatMap Item.bytes)
      rw [filterMap_cons, Item.frame?, flatMap_cons] at hyields
      cases hframes : items.filterMap Item.frame? with
      | nil =>
        rw [hframes] at hyields
        rw [hyields.2] at hread
        cases hread
      | cons frame frames =>
        rw [hframes] at hyields
        obtain ⟨rest, hok, -⟩ := hyields
        rw [hok] at hread
        cases hread

/-! ## When the readers deliver what they should -/

theorem bytes_of_known {items : List Item} (h : ∀ item ∈ items, item.frame?.isSome) :
    items.flatMap Item.bytes = (items.filterMap Item.frame?).flatMap encode := by
  induction items with
  | nil =>
    rfl
  | cons item items ih =>
    cases item with
    | known frame =>
      rw [flatMap_cons, ih fun item hitem => h item (mem_cons_of_mem _ hitem)]
      rfl
    | unknown tyByte payload => cases h _ mem_cons_self

theorem fits_of_wf {items : List Item} (hwf : ∀ item ∈ items, item.Wf) :
    ∀ frame ∈ items.filterMap Item.frame?, frame.Fits := by
  intro frame hframe
  obtain ⟨item, hitem, hsome⟩ := mem_filterMap.mp hframe
  cases item with
  | known frame' =>
    cases hsome
    exact hwf _ hitem
  | unknown tyByte payload => cases hsome

/-- **The four readers deliver the known frames exactly if there are no others.** -/
theorem deliver_iff_known {debug : ProtocolError → Str} {grants : ℕ → ℕ} {items : List Item}
    (hwf : ∀ item ∈ items, item.Wf) (hwhole : HeadersWhole grants 0 (items.filterMap Item.frame?))
    {turns : ℕ} (hturns : (items.flatMap Item.bytes).length < turns) :
    Deliver debug grants turns items ↔ ∀ item ∈ items, item.frame?.isSome := by
  refine ⟨fun h => known_of_yields hwf h.host, fun hknown => ?_⟩
  have hbytes := bytes_of_known hknown
  have hfits := fits_of_wf hwf
  have hcount : (items.filterMap Item.frame?).length ≤ turns := by
    have hle := length_le_length_encodings (items.filterMap Item.frame?)
    rw [← hbytes] at hle
    omega
  have huntil := fun frame (h : frame ∈ untilExit _) => hfits frame (mem_of_mem_untilExit h)
  constructor
  · rw [hbytes]
    exact yields_encodings (fun _ tail h => readFrame_encode h tail) rfl hfits
  · rw [hbytes]
    exact yields_encodings (fun _ tail h => recvFrame_encode h tail) rfl hfits
  · rw [hbytes]
    exact (runSession_takesFrames debug grants).deliver huntil hwhole hcount
  · rw [hbytes]
    exact (runThread_takesFrames grants).deliver huntil hwhole hcount

/-- A frame of a type to come, whose payload looks like a `StdinEof`, and a line of output. -/
def newer : List Item := [.unknown 0x0a (encode .stdinEof), .known (.workloadStdout [111, 107, 10])]

theorem newer_not_delivered :
    (∀ item ∈ newer, item.Wf) ∧
      (readFrame (newer.flatMap Item.bytes)).1 = .error (.error (.truncated .initHello 0 0)) ∧
      runSession (fun _ => []) (fun _ => 64) 64 ⟨0, newer.flatMap Item.bytes⟩
        = [.error "unknown vsock frame type: 0xa".toList] ∧
      runThread (fun _ => 64) 64 ⟨0, newer.flatMap Item.bytes⟩
        = [.stdinEof, .workloadStdout [111, 107, 10]] ∧
      ¬ Deliver (fun _ => []) (fun _ => 64) 64 newer := by
  have hthread : runThread (fun _ => 64) 64 ⟨0, newer.flatMap Item.bytes⟩
      = [.stdinEof, .workloadStdout [111, 107, 10]] := by decide +kernel
  refine ⟨by decide +kernel, by decide +kernel, by decide +kernel, hthread, fun h => ?_⟩
  have hdeliver := h.thread
  rw [hthread] at hdeliver
  exact absurd hdeliver (by decide +kernel)

theorem session_delivered :
    Deliver (fun _ => []) (fun _ => 64) 512 (session.map Item.known) :=
  (deliver_iff_known (by decide +kernel) (headersWhole_of_forall (fun _ => by decide) _ 0)
    (by decide +kernel)).mpr (by decide +kernel)

end Pullrun.Vsock
