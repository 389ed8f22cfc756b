import Pullrun.Lib.Schedule
import Pullrun.Net.Proxy

/-!
# Who owns a listener

After each call the ports of the live listeners should be the ports that `active_sessions` keeps, each
under the workload it was started for (`Owned`).
-/

namespace Pullrun.Net

open List

theorem Listener.eq_of_handle_eq {l l' : Listener} (h : l.handle = l'.handle)
    (howner : l.owner = l'.owner) : l = l' := by
  cases l
  cases l'
  injection h with htask hport
  injection hport with hport
  cases htask
  cases hport
  cases howner
  rfl

namespace ProxyNetwork

/-! ## The property and the condition -/

structure Owned (s : ProxyNetwork) : Prop where
  ports : ∀ port, port ∈ s.livePorts ↔ ∃ id, port ∈ s.inboundPorts id
  owner : ∀ l ∈ s.live, l.port ∈ s.inboundPorts l.owner

def Bindable : List UInt16 → List (NetworkRule × Option UInt16) → Prop
  | _, [] => True
  | taken, (rule, answer) :: rules =>
    if rule.Listens then
      match bind taken rule.bindsTo answer with
      | none => False
      | some port => Bindable (port :: taken) rules
    else Bindable taken rules

def FirstRefused (taken : List UInt16) : List (NetworkRule × Option UInt16) → Prop
  | [] => False
  | (rule, answer) :: rules =>
    if rule.Listens then bind taken rule.bindsTo answer = none else FirstRefused taken rules

/-- The calls that lose no listener: a registration of all ports for a workload that has none, one that
    fails on its first port, and any teardown. -/
def Kept (s : ProxyNetwork) : Call → Prop
  | .register id _ rules =>
    Bindable s.livePorts rules ∧ s.inboundPorts id = [] ∨ FirstRefused s.livePorts rules
  | .teardown _ => True

/-! ## What a registration starts -/

structure Started (s s' : ProxyNetwork) (id : Str) (new : List Listener) : Prop where
  live : s'.live = new ++ s.live
  sessions : s'.activeSessions = s.activeSessions
  next : s.next ≤ s'.next
  owner : ∀ l ∈ new, l.owner = id
  fresh : ∀ l ∈ new, s.next ≤ l.task ∧ l.task < s'.next
  port : ∀ l ∈ new, l.port ∉ s.livePorts

theorem Started.refl (s : ProxyNetwork) (id : Str) : Started s s id [] :=
  ⟨rfl, rfl, le_refl _, by simp, by simp, by simp⟩

variable {s s' : ProxyNetwork} {id : Str} {port granted : UInt16} {answer : Option UInt16}
  {taken : List UInt16} {call : Call}

theorem Started.trans {s1 s2 : ProxyNetwork} {new new' : List Listener} (h : Started s s1 id new)
    (h' : Started s1 s2 id new') : Started s s2 id (new' ++ new) where
  live := by rw [h'.live, h.live, append_assoc]
  sessions := h'.sessions.trans h.sessions
  next := h.next.trans h'.next
  owner l hl := by
    rcases mem_append.mp hl with hl | hl
    · exact h'.owner l hl
    · exact h.owner l hl
  fresh l hl := by
    have hn := h.next
    have hn' := h'.next
    rcases mem_append.mp hl with hl | hl
    · have := h'.fresh l hl
      omega
    · have := h.fresh l hl
      omega
  port l hl := by
    rcases mem_append.mp hl with hl | hl
    · intro hmem
      refine h'.port l hl ?_
      rw [livePorts, h.live, map_append]
      exact mem_append_right _ hmem
    · exact h.port l hl

theorem not_mem_of_bind (h : bind taken port answer = some granted) : granted ∉ taken := by
  unfold bind at h
  cases answer with
  | none => cases h
  | some free =>
    simp only at h
    generalize (if port = 0 then free else port) = chosen at h
    by_cases hmem : chosen ∈ taken
    · rw [if_pos hmem] at h
      cases h
    · rw [if_neg hmem] at h
      cases h
      exact hmem

theorem startInboundProxy_started (h : bind s.livePorts port answer = some granted) :
    ∃ s', s.startInboundProxy id port answer = (.ok ⟨s.next, some granted⟩, s') ∧
      s'.livePorts = granted :: s.livePorts ∧ Started s s' id [⟨s.next, id, granted⟩] := by
  refine ⟨{ s with live := ⟨s.next, id, granted⟩ :: s.live, next := s.next + 1 }, ?_, rfl, ?_⟩
  · rw [startInboundProxy, h]
  · refine ⟨rfl, rfl, Nat.le_succ _, ?_, ?_, ?_⟩
    · intro l hl
      rw [mem_singleton.mp hl]
    · intro l hl
      rw [mem_singleton.mp hl]
      exact ⟨le_refl _, Nat.lt_succ_self _⟩
    · intro l hl
      rw [mem_singleton.mp hl]
      exact not_mem_of_bind h

theorem startListeners_spec (id : Str) (rules : List (NetworkRule × Option UInt16))
    (c : Collected) (s : ProxyNetwork) :
    ∃ s' new, Started s s' id new ∧
      ((∃ c', startListeners id rules c s = (.ok c', s') ∧ Bindable s.livePorts rules ∧
          ¬ FirstRefused s.livePorts rules ∧
          ∀ h, h ∈ c'.proxyHandles ↔ h ∈ c.proxyHandles ∨ h ∈ new.map Listener.handle) ∨
        ∃ e, startListeners id rules c s = (.error e, s') ∧ ¬ Bindable s.livePorts rules ∧
          (new = [] ↔ FirstRefused s.livePorts rules) ∧ (new = [] → s' = s)) := by
  induction rules generalizing c s with
  | nil =>
    exact ⟨s, [], Started.refl s id, .inl ⟨c, rfl, trivial, not_false, by simp⟩⟩
  | cons rule rules ih =>
    obtain ⟨rule, answer⟩ := rule
    rw [startListeners, Bindable, FirstRefused]
    by_cases hlistens : rule.Listens
    · simp only [if_pos hlistens]
      cases hbind : bind s.livePorts rule.bindsTo answer with
      | none =>
        refine ⟨s, [], Started.refl s id, .inr ⟨.setupFailed rule.bindsTo, ?_, not_false, by simp,
          fun _ => rfl⟩⟩
        rw [startInboundProxy, hbind]
      | some port =>
        obtain ⟨s1, hstart, hports, hs1⟩ := startInboundProxy_started hbind
        rw [hstart]
        obtain ⟨s', new, hs', hrest⟩ := ih ⟨c.proxyHandles ++ [⟨s.next, some port⟩],
          c.hostPortMappings ++ [(rule.bindsTo, rule.port)]⟩ s1
        refine ⟨s', new ++ [⟨s.next, id, port⟩], hs1.trans hs', ?_⟩
        rw [hports] at hrest
        rcases hrest with ⟨c', hrun, hb, -, hmem⟩ | ⟨e, hrun, hb, -⟩
        · refine .inl ⟨c', hrun, hb, by simp, fun h => ?_⟩
          rw [hmem, map_append]
          simp only [mem_append, mem_singleton, map_cons, map_nil, Listener.handle]
          tauto
        · exact .inr ⟨e, hrun, hb, by simp, by simp⟩
    · simp only [if_neg hlistens]
      exact ih c s

/-! ## The invariant -/

structure Inv (s : ProxyNetwork) : Prop where
  recorded : ∀ l, l ∈ s.live ↔ l.handle ∈ s.recorded l.owner
  bound : ∀ id, ∀ h ∈ s.recorded id, h.task < s.next
  once : ∀ id id' h h', h ∈ s.recorded id → h' ∈ s.recorded id' → h.task = h'.task → id = id'

theorem mem_inboundPorts :
    port ∈ s.inboundPorts id ↔ ∃ task, (⟨task, some port⟩ : Handle) ∈ s.recorded id := by
  rw [inboundPorts, mem_filterMap]
  constructor
  · rintro ⟨⟨task, p⟩, hmem, hport⟩
    have hp : p = some port := hport
    exact ⟨task, hp ▸ hmem⟩
  · rintro ⟨task, hmem⟩
    exact ⟨_, hmem, rfl⟩

theorem Inv.mem_inboundPorts (hs : s.Inv) :
    port ∈ s.inboundPorts id ↔ ∃ l ∈ s.live, l.owner = id ∧ l.port = port := by
  rw [ProxyNetwork.mem_inboundPorts]
  constructor
  · rintro ⟨task, hmem⟩
    exact ⟨⟨task, id, port⟩, (hs.recorded ⟨task, id, port⟩).mpr hmem, rfl, rfl⟩
  · rintro ⟨l, hl, rfl, rfl⟩
    exact ⟨l.task, (hs.recorded l).mp hl⟩

theorem Inv.owned (hs : s.Inv) : s.Owned where
  ports port := by
    rw [livePorts, mem_map]
    constructor
    · rintro ⟨l, hl, rfl⟩
      exact ⟨l.owner, hs.mem_inboundPorts.mpr ⟨l, hl, rfl, rfl⟩⟩
    · rintro ⟨id, hport⟩
      obtain ⟨l, hl, -, hport⟩ := hs.mem_inboundPorts.mp hport
      exact ⟨l, hl, hport⟩
  owner l hl := hs.mem_inboundPorts.mpr ⟨l, hl, rfl, rfl⟩

theorem inv_new : new.Inv where
  recorded l := by simp [new, recorded]
  bound id h hh := by simp [new, recorded] at hh
  once id id' h h' hh := by simp [new, recorded] at hh

theorem recorded_record (s : ProxyNetwork) (id id' : Str) (c : Collected) :
    (s.record id c).recorded id' =
      if id' = id then c.proxyHandles ++ [⟨s.next, none⟩] else s.recorded id' := by
  unfold recorded record
  by_cases h : id' = id
  · subst h
    simp
  · simp [h]

theorem recorded_teardown (s : ProxyNetwork) (id id' : Str) :
    (s.teardown id).recorded id' = if id' = id then [] else s.recorded id' := by
  unfold teardown
  cases h : s.activeSessions id with
  | none =>
    by_cases hid : id' = id
    · rw [if_pos hid, hid, recorded, h]
      rfl
    · rw [if_neg hid]
  | some handles =>
    unfold recorded
    by_cases hid : id' = id
    · subst hid
      simp
    · simp [hid]

theorem mem_live_teardown (s : ProxyNetwork) (id : Str) (l : Listener) :
    l ∈ (s.teardown id).live ↔ l ∈ s.live ∧ l.task ∉ (s.recorded id).map Handle.task := by
  unfold teardown recorded
  cases h : s.activeSessions id with
  | none => simp
  | some handles => simp

theorem next_teardown (s : ProxyNetwork) (id : Str) : (s.teardown id).next = s.next := by
  unfold teardown
  cases s.activeSessions id <;> rfl

/-! ## Steps -/

theorem Inv.teardown (hs : s.Inv) (id : Str) : (s.teardown id).Inv where
  recorded l := by
    rw [mem_live_teardown, recorded_teardown, hs.recorded]
    by_cases hid : l.owner = id
    · rw [if_pos hid, hid]
      constructor
      · rintro ⟨hmem, hnot⟩
        exact absurd (mem_map_of_mem hmem) hnot
      · intro h
        cases h
    · rw [if_neg hid]
      refine ⟨fun h => h.1, fun h => ⟨h, fun hmem => ?_⟩⟩
      obtain ⟨h', hh', htask⟩ := mem_map.mp hmem
      exact hid (hs.once _ _ _ _ h hh' htask.symm)
  bound id' h hh := by
    rw [recorded_teardown] at hh
    rw [next_teardown]
    split at hh
    · cases hh
    · exact hs.bound id' h hh
  once id1 id2 h1 h2 hh1 hh2 := by
    rw [recorded_teardown] at hh1 hh2
    split at hh1
    · cases hh1
    · split at hh2
      · cases hh2
      · exact hs.once id1 id2 h1 h2 hh1 hh2

theorem Inv.record (hs : s.Inv) {new : List Listener} {c : Collected} (hnew : Started s s' id new)
    (hc : ∀ h, h ∈ c.proxyHandles ↔ h ∈ new.map Listener.handle) (hnone : s.inboundPorts id = []) :
    (s'.record id c).Inv := by
  have hrec : ∀ id', s'.recorded id' = s.recorded id' := by
    intro id'
    rw [ProxyNetwork.recorded, hnew.sessions]
    rfl
  -- What is kept now: the started listeners and one task more, or what was kept before.
  have hkept : ∀ id' h, h ∈ (s'.record id c).recorded id' ↔
      id' = id ∧ (h ∈ new.map Listener.handle ∨ h = ⟨s'.next, none⟩) ∨ id' ≠ id ∧ h ∈ s.recorded id' := by
    intro id' h
    rw [recorded_record, hrec]
    by_cases hid : id' = id
    · rw [if_pos hid, mem_append, hc, mem_singleton]
      tauto
    · rw [if_neg hid]
      tauto
  have htask : ∀ h, h ∈ new.map Listener.handle ∨ h = ⟨s'.next, none⟩ →
      s.next ≤ h.task ∧ h.task < s'.next + 1 := by
    rintro h (hh | rfl)
    · obtain ⟨l, hl, rfl⟩ := mem_map.mp hh
      have hfresh := hnew.fresh l hl
      exact ⟨hfresh.1, Nat.lt_succ_of_lt hfresh.2⟩
    · exact ⟨hnew.next, Nat.lt_succ_self _⟩
  have hnext := hnew.next
  constructor
  · intro l
    change l ∈ s'.live ↔ _
    rw [hnew.live, mem_append, hkept]
    by_cases hid : l.owner = id
    · have hold : l ∉ s.live := by
        intro hl
        have hport := hs.mem_inboundPorts.mpr ⟨l, hl, hid, rfl⟩
        rw [hnone] at hport
        cases hport
      have hhandle : l.handle ∈ new.map Listener.handle ↔ l ∈ new := by
        refine ⟨fun h => ?_, mem_map_of_mem⟩
        obtain ⟨l', hl', heq⟩ := mem_map.mp h
        rw [← Listener.eq_of_handle_eq heq ((hnew.owner l' hl').trans hid.symm)]
        exact hl'
      have hne : l.handle ≠ ⟨s'.next, none⟩ := by
        intro h
        injection h with _ h
        cases h
      tauto
    · have hnot : l ∉ new := fun hl => hid (hnew.owner l hl)
      rw [hs.recorded]
      tauto
  · intro id' h hh
    change h.task < s'.next + 1
    rcases (hkept id' h).mp hh with ⟨-, hh⟩ | ⟨-, hh⟩
    · exact (htask h hh).2
    · have := hs.bound id' h hh
      omega
  · intro id1 id2 h1 h2 hh1 hh2 heq
    rcases (hkept id1 h1).mp hh1 with ⟨hid1, hh1⟩ | ⟨-, hh1⟩ <;>
      rcases (hkept id2 h2).mp hh2 with ⟨hid2, hh2⟩ | ⟨-, hh2⟩
    · rw [hid1, hid2]
    · have := (htask h1 hh1).1
      have := hs.bound id2 h2 hh2
      omega
    · have := (htask h2 hh2).1
      have := hs.bound id1 h1 hh1
      omega
    · exact hs.once id1 id2 h1 h2 hh1 hh2 heq

/-- **One call.** From a state with the invariant, a call that loses no listener keeps it. -/
theorem Inv.step (hs : s.Inv) (hkept : s.Kept call) (h : s.step call = some s') :
    s'.Inv := by
  cases call with
  | teardown id =>
    cases h
    exact hs.teardown id
  | register id internalIp rules =>
    cases h
    rw [registerEndpoint]
    obtain ⟨s', new, hnew, ⟨c', hrun, -, hnot, hmem⟩ | ⟨e, hrun, hb, hrefused, hsame⟩⟩ :=
      startListeners_spec id rules {} s
    · rw [hrun]
      have hnone : s.inboundPorts id = [] := by
        rcases hkept with hkept | hrefused
        · exact hkept.2
        · exact absurd hrefused hnot
      exact hs.record hnew (fun h => by rw [hmem]; simp) hnone
    · rw [hrun]
      rcases hkept with hkept | hfirst
      · exact absurd hkept.1 hb
      · rw [hsame (hrefused.mpr hfirst)]
        exact hs

theorem Inv.kept_of_owned (hs : s.Inv) (h : s.step call = some s')
    (howned : s'.Owned) : s.Kept call := by
  cases call with
  | teardown id => trivial
  | register id internalIp rules =>
    cases h
    rw [registerEndpoint] at howned
    obtain ⟨s', new, hnew, ⟨c', hrun, hb, -, hmem⟩ | ⟨e, hrun, -, hrefused, -⟩⟩ :=
      startListeners_spec id rules {} s
    · rw [hrun] at howned
      refine Or.inl ⟨hb, ?_⟩
      by_contra hne
      -- A listener of before is still live, and its port is none of those that are kept now.
      obtain ⟨port, hport⟩ := exists_mem_of_ne_nil _ hne
      obtain ⟨l, hl, rfl, rfl⟩ := hs.mem_inboundPorts.mp hport
      have hlive : l ∈ s'.live := by
        rw [hnew.live]
        exact mem_append_right _ hl
      obtain ⟨task, hkept⟩ := ProxyNetwork.mem_inboundPorts.mp (howned.owner l hlive)
      rw [recorded_record, if_pos rfl, mem_append, hmem] at hkept
      rcases hkept with (hkept | hkept) | hkept
      · cases hkept
      · obtain ⟨l', hl', heq⟩ := mem_map.mp hkept
        injection heq with _ hport
        injection hport with hport
        refine hnew.port l' hl' ?_
        rw [hport]
        exact mem_map_of_mem hl
      · rw [mem_singleton] at hkept
        injection hkept with _ hport
        cases hport
    · rw [hrun] at howned
      refine Or.inr (hrefused.mp ?_)
      by_contra hne
      -- A listener that was started is live, and what is kept is what was kept before.
      obtain ⟨l, hl⟩ := exists_mem_of_ne_nil _ hne
      have hlive : l ∈ s'.live := by
        rw [hnew.live]
        exact mem_append_left _ hl
      have hport : l.port ∈ s.inboundPorts l.owner := by
        have hkept := howned.owner l hlive
        rw [inboundPorts, ProxyNetwork.recorded, hnew.sessions] at hkept
        exact hkept
      obtain ⟨l', hl', -, hsame⟩ := hs.mem_inboundPorts.mp hport
      refine hnew.port l hl ?_
      rw [← hsame]
      exact mem_map_of_mem hl'

/-- **The live listeners are the kept ones after every call exactly if every call is one that loses
none.** -/
theorem owned_iff_kept (calls : List Call) :
    Schedule.Meets step (fun s call => ∀ s', s.step call = some s' → s'.Owned) new calls ↔
      Schedule.Meets step Kept new calls := by
  refine Schedule.meets_congr Inv (fun s call s' hs hkept h => hs.step hkept h) ?_ inv_new calls
  intro s call hs
  constructor
  · intro howned
    cases call with
    | teardown id => trivial
    | register id internalIp rules => exact hs.kept_of_owned rfl (howned _ rfl)
  · intro hkept s' h
    exact (hs.step hkept h).owned

/-- Two ports, of which the system refuses the second. -/
def halfBound : List Call :=
  [.register ['a'] [] [(⟨.inbound, .tcp, 80, 8080⟩, some 0), (⟨.inbound, .tcp, 443, 8443⟩, none)]]

theorem halfBound_not_owned :
    ((new.registerEndpoint ['a'] [] [(⟨.inbound, .tcp, 80, 8080⟩, some 0),
        (⟨.inbound, .tcp, 443, 8443⟩, none)]).2.livePorts = [8080]) ∧
      ¬ Schedule.Meets step (fun s call => ∀ s', s.step call = some s' → s'.Owned) new halfBound := by
  refine ⟨by decide, fun h => ?_⟩
  have howned := h.1 _ rfl
  have hport := howned.owner ⟨0, ['a'], 8080⟩ (by decide)
  exact absurd hport (by decide)

end ProxyNetwork

end Pullrun.Net
