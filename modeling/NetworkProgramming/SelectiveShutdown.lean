/-
**How the relays of the selective-repeat transfer stop.**

The loop of the relays ends when `is_last` is `1` at its test.  One variable takes the flag of the
packets in both directions: first that of the acknowledgement which a pass forwards, then that of
every packet which it passes on, so that the last of them decides.  The FIN packet itself has the
flag, long before the server has acknowledged it.

Main definitions:

* `SelectiveRepeat.OrderlyExit` — the relays have not stopped, or the client has what it waits for;
* `SelectiveRepeat.DataFollows` — a data packet is accepted behind every FIN of a pass;
* `SelectiveRepeat.Timely` — this is so in all passes up to the first in which an acknowledgement of
  the FIN comes while channel `0` is the last one heard.

Main results:

* `SelectiveRepeat.pass_isLast` — which packet of a pass decides on the end of the loop;
* `SelectiveRepeat.waiting_forever` — a client that waits on relays that have stopped waits for ever;
* `SelectiveRepeat.finAcked_step` — when the acknowledgement of the FIN gets to the client;
* `SelectiveRepeat.orderlyExit_iff` — **the order of arrivals with which the relays stop in an orderly
  way**;
* `SelectiveRepeat.not_orderlyExit` — the FIN packet alone stops the relays.
-/

import NetworkProgramming.SelectiveRepeat

set_option relaxedAutoImplicit false
set_option autoImplicit false

namespace SelectiveRepeat

open Runs
open StopWait (Packet Byte)

/-! ### An orderly end -/

/-- The relays have sent the acknowledgement of a FIN to channel `0`, where the client reads it. -/
def FinAcked (s : Sys) : Prop := ∃ f ∈ s.forwarded, f.1.header.isLast = 1 ∧ f.2 = some 0

/-- The client waits in `poll` and nothing is there for it. -/
def Waiting (s : Sys) : Prop :=
  match s.pc with
  | .ack i => s.toClient i = []
  | .fin => s.toClient 0 = []
  | _ => False

/-- **An orderly end**: when the relays have left their loop, they have forwarded the acknowledgement
of the FIN to the client, and the client does not wait for them. -/
def OrderlyExit (s : Sys) : Prop := s.isLast = 1 → FinAcked s ∧ ¬ Waiting s

/-! ### Which packet ends the loop -/

/-- The acknowledgement that a pass takes from the server. -/
def answered (s : Sys) (ack : Option (ℕ × ℕ)) : List Packet :=
  (ack.bind fun x => s.fromServer[x.1]?).toList

/-- The packets that a pass takes and does not drop. -/
def accepted (s : Sys) (recvs : List Recv) : List Packet :=
  (recvs.filter fun r => !r.drop).filterMap fun r => ((s.toRelay r.relay)[r.n]?).map Prod.snd

/-- The last packet that a pass forwards in either direction is a FIN or its acknowledgement. -/
def EndsOnFin (s : Sys) (ack : Option (ℕ × ℕ)) (recvs : List Recv) : Prop :=
  ∃ p ∈ (answered s ack ++ accepted s recvs).getLast?, p.header.isLast = 1

/-- The acknowledgement of a FIN comes from the server while channel `0` is the last one that the
relays have heard. -/
def FinAckReturns (s : Sys) : Event → Prop
  | .pass ack _ => (∃ a ∈ answered s ack, a.header.isLast = 1) ∧ s.heard.getLast? = some 0
  | _ => False

/-- Behind every packet with the flag of the FIN there is one without it. -/
def DataFollows : List Packet → Prop
  | [] => True
  | p :: ps => (p.header.isLast = 1 → ∃ q ∈ ps, q.header.isLast ≠ 1) ∧ DataFollows ps

/-- In a pass, a data packet is accepted by a later relay than a FIN, and after the acknowledgement of
one. -/
def Event.DataFollows (s : Sys) : Event → Prop
  | .pass ack recvs => SelectiveRepeat.DataFollows (answered s ack ++ accepted s recvs)
  | _ => True

/-- **The order of arrivals**: up to the first pass in which an acknowledgement of the FIN comes while
channel `0` is the last one heard, every FIN that the relays accept has a data packet behind it in its
pass.  Nothing is asked of what comes later. -/
def Timely : Sys → List Event → Prop
  | _, [] => True
  | s, e :: es => FinAckReturns s e ∨ e.DataFollows s ∧
      match step s e with
      | none => True
      | some t => Timely t es

/-- A pass that ends on a FIN comes after the acknowledgement of the FIN has gone to channel `0`, or is
the one in which it goes there. -/
def Orderly (s : Sys) (e : Event) : Prop :=
  match e with
  | .pass ack recvs => EndsOnFin s ack recvs → FinAcked s ∨ FinAckReturns s e
  | _ => True

instance (s : Sys) (e : Event) : Decidable (FinAckReturns s e) :=
  match e with
  | .write => isFalse id
  | .timeout => isFalse id
  | .read _ => isFalse id
  | .serve _ => isFalse id
  | .pass ack _ => inferInstanceAs (Decidable
      ((∃ a ∈ answered s ack, a.header.isLast = 1) ∧ s.heard.getLast? = some 0))

instance DataFollows.decidable : ∀ ps, Decidable (DataFollows ps)
  | [] => isTrue trivial
  | p :: ps =>
      have := DataFollows.decidable ps
      inferInstanceAs (Decidable ((p.header.isLast = 1 → ∃ q ∈ ps, q.header.isLast ≠ 1) ∧ _))

instance (s : Sys) (e : Event) : Decidable (e.DataFollows s) :=
  match e with
  | .write => isTrue trivial
  | .timeout => isTrue trivial
  | .read _ => isTrue trivial
  | .serve _ => isTrue trivial
  | .pass ack recvs => DataFollows.decidable (answered s ack ++ accepted s recvs)

instance Timely.decidable : ∀ (s : Sys) (es : List Event), Decidable (Timely s es)
  | _, [] => isTrue trivial
  | s, e :: es =>
      have : Decidable (match step s e with
          | none => True
          | some t => Timely t es) :=
        match step s e with
        | none => isTrue trivial
        | some t => Timely.decidable t es
      inferInstanceAs (Decidable (FinAckReturns s e ∨ e.DataFollows s ∧ _))

/-- Data follows everywhere exactly if a pass does not end on a FIN. -/
theorem dataFollows_iff {ps : List Packet} :
    DataFollows ps ↔ ¬ ∃ p ∈ ps.getLast?, p.header.isLast = 1 := by
  induction ps with
  | nil => simp [DataFollows]
  | cons p ps ih =>
      cases ps with
      | nil => simp [DataFollows]
      | cons q ps =>
          rw [DataFollows, ih, List.getLast?_cons_cons, and_iff_right_iff_imp]
          intro hlast _
          refine ⟨(q :: ps).getLast (List.cons_ne_nil _ _), List.getLast_mem _, ?_⟩
          intro hfin
          exact hlast ⟨_, List.getLast?_eq_some_getLast (List.cons_ne_nil _ _), hfin⟩

/-- The packets of the other relays are where they were. -/
theorem accepted_packetHeard (s : Sys) {r : Recv} (x : ℕ × Packet) {recvs : List Recv}
    (hne : ∀ r' ∈ recvs, r.relay < r'.relay) :
    accepted (s.packetHeard r x) recvs = accepted s recvs := by
  refine List.filterMap_congr ?_
  intro r' hr'
  have hlt := hne r' (List.mem_of_mem_filter hr')
  rw [Sys.packetHeard_toRelay, Function.update_of_ne (Nat.ne_of_gt hlt)]

theorem accepted_cons {s : Sys} {r : Recv} {x : ℕ × Packet} (recvs : List Recv)
    (hx : (s.toRelay r.relay)[r.n]? = some x) :
    accepted s (r :: recvs) = (if r.drop then [] else [x.2]) ++ accepted s recvs := by
  cases hdrop : r.drop <;> simp [accepted, hdrop, hx]

/-- The second half of a pass leaves in `is_last` the flag of the last packet that it accepts. -/
theorem forwardPackets_isLast {s t : Sys} {recvs : List Recv}
    (hsorted : (recvs.map Recv.relay).Pairwise (· < ·))
    (h : run forwardPacket s recvs = some t) :
    t.isLast = ((accepted s recvs).getLast?.map (·.header.isLast)).getD s.isLast := by
  induction recvs generalizing s with
  | nil =>
      obtain rfl := Option.some_inj.1 h
      rfl
  | cons r recvs ih =>
      rw [List.map_cons, List.pairwise_cons] at hsorted
      obtain ⟨hlt, hsorted⟩ := hsorted
      obtain ⟨u, hu, hrun⟩ := run_cons_eq_some.1 h
      obtain ⟨x, hx, rfl⟩ := Option.map_eq_some_iff.1 hu
      have hne : ∀ r' ∈ recvs, r.relay < r'.relay :=
        fun r' hr' => hlt r'.relay (List.mem_map_of_mem hr')
      rw [ih hsorted hrun, accepted_packetHeard s x hne, accepted_cons recvs hx,
        List.getLast?_append, Sys.packetHeard_isLast]
      -- a packet that is accepted later decides; else this one does, unless it is dropped
      cases (accepted s recvs).getLast? with
      | some p => rfl
      | none => cases r.drop <;> rfl

/-- **The last packet of a pass decides on the end of the loop.** -/
theorem pass_isLast {s t : Sys} {ack : Option (ℕ × ℕ)} {recvs : List Recv}
    (h : step s (.pass ack recvs) = some t) : t.isLast = 1 ↔ EndsOnFin s ack recvs := by
  cases step_cases h with
  | pass hrunning hsel hrecvs =>
      rw [forwardPackets_isLast hsel.2.1 hrecvs, EndsOnFin]
      simp only [answered, Option.bind_none, Option.toList_none, List.nil_append]
      cases (accepted s recvs).getLast? with
      | none => simpa using hrunning
      | some p => simp
  | @passAck x a _ _ hrunning hsel ha hrecvs =>
      have haccepted : accepted (s.ackForwarded x a) recvs = accepted s recvs := rfl
      rw [forwardPackets_isLast hsel.2.1 hrecvs, haccepted, EndsOnFin]
      simp only [answered, Option.bind_some, ha, Option.toList_some, List.getLast?_append]
      cases (accepted s recvs).getLast? with
      | none => simp
      | some p => simp

/-- What a pass adds to the acknowledgements that were forwarded. -/
theorem pass_finAcked {s t : Sys} {ack : Option (ℕ × ℕ)} {recvs : List Recv} (hs : Traced s)
    (h : step s (.pass ack recvs) = some t) :
    FinAcked t ↔ FinAcked s ∨ FinAckReturns s (.pass ack recvs) := by
  cases step_cases h with
  | pass hrunning hsel hrecvs =>
      obtain ⟨-, -, hforwarded, -⟩ := run_forwardPacket hrecvs
      rw [FinAcked, hforwarded]
      simp [FinAcked, FinAckReturns, answered]
  | passAck hrunning hsel ha hrecvs =>
      obtain ⟨-, -, hforwarded, -⟩ := run_forwardPacket hrecvs
      rw [FinAcked, hforwarded, Sys.ackForwarded_forwarded, hs.cliAddr]
      simp [FinAcked, FinAckReturns, answered, ha, Packet.ack, or_and_right, exists_or]

/-- **When the acknowledgement of the FIN gets to the client**: in the passes in which it comes while
channel `0` is the last one heard. -/
theorem finAcked_step {s t : Sys} {e : Event} (hs : Traced s) (h : step s e = some t) :
    FinAcked t ↔ FinAcked s ∨ FinAckReturns s e := by
  cases step_cases h with
  | send hpc => exact (or_iff_left id).symm
  | sendFin hpc => exact (or_iff_left id).symm
  | resend hpc => exact (or_iff_left id).symm
  | resendFin hpc => exact (or_iff_left id).symm
  | readAck hpc hx => exact (or_iff_left id).symm
  | readFin hpc hx => exact (or_iff_left id).symm
  | served hp => exact (or_iff_left id).symm
  | pass _ _ _ => exact pass_finAcked hs h
  | passAck _ _ _ _ => exact pass_finAcked hs h

/-! ### The end of the client -/

/-- Once the acknowledgement of the FIN is sent, the client has it or has finished. -/
def FinReached (s : Sys) : Prop :=
  FinAcked s → s.pc = .done ∨ s.pc = .fin ∧ s.toClient 0 ≠ []

theorem deliver_ne_nil {q : ℕ → List (ℕ × Packet)} (addr : Option ℕ) (x : ℕ × Packet) {i : ℕ}
    (h : q i ≠ [] ∨ addr = some i) : deliver q addr x i ≠ [] := by
  cases addr with
  | none => exact h.resolve_right (by simp)
  | some j =>
      rcases eq_or_ne i j with rfl | hne
      · simp [deliver, enqueue]
      · rw [deliver, enqueue, Function.update_of_ne hne]
        exact h.resolve_right (by simpa using hne.symm)

/-- A pass that forwards an acknowledgement brings the one of the FIN to the client. -/
theorem FinReached.ackForwarded {s : Sys} (h : FinReached s) (hs : Traced s) {x : ℕ × ℕ} {a : Packet}
    (ha : s.fromServer[x.1]? = some a) : FinReached (s.ackForwarded x a) := by
  rintro ⟨f, hf, hlast, haddr⟩
  rcases List.mem_append.1 hf with hf | hf
  · rcases h ⟨f, hf, hlast, haddr⟩ with hdone | ⟨hfin, hne⟩
    · exact Or.inl hdone
    · exact Or.inr ⟨hfin, deliver_ne_nil _ _ (Or.inl hne)⟩
  · rw [List.mem_singleton.1 hf] at hlast haddr
    -- the FIN was sent, so the client is at the end of its program
    obtain ⟨i, p, hp, rfl⟩ := hs.fromServer a (List.mem_of_getElem? ha)
    rcases hs.lastFin _ hp hlast with hfin | hdone
    · exact Or.inr ⟨hfin, deliver_ne_nil _ _ (Or.inr haddr)⟩
    · exact Or.inl hdone

theorem FinReached.forwardPackets {s t : Sys} (h : FinReached s) {recvs : List Recv}
    (hrun : run forwardPacket s recvs = some t) : FinReached t := by
  obtain ⟨hpc, hclient, hforwarded, -⟩ := run_forwardPacket hrun
  rw [FinReached, FinAcked, hpc, hclient, hforwarded]
  exact h

/-- **The step lemma**: nothing but the client takes the acknowledgement of the FIN away. -/
theorem FinReached.step {s t : Sys} {e : Event} (h : FinReached s) (hs : Traced s)
    (ht : step s e = some t) : FinReached t := by
  -- a client that is still sending, or collects acknowledgements, has not sent the FIN
  have hearly : s.pc ≠ .fin → s.pc ≠ .done → ¬ FinAcked s := by
    intro hfin hdone hack
    rcases h hack with hpc | ⟨hpc, -⟩
    · exact hdone hpc
    · exact hfin hpc
  cases step_cases ht with
  | send hpc => exact fun hack => absurd hack (hearly (by simp [hpc]) (by simp [hpc]))
  | sendFin hpc => exact fun hack => absurd hack (hearly (by simp [hpc]) (by simp [hpc]))
  | resend hpc => exact h
  | resendFin hpc => exact h
  | readAck hpc hx => exact fun hack => absurd hack (hearly (by simp [hpc]) (by simp [hpc]))
  | readFin hpc hx => exact fun _ => Or.inl rfl
  | served hp => exact h
  | pass _ _ hrecvs => exact h.forwardPackets hrecvs
  | passAck _ _ ha hrecvs => exact (h.ackForwarded hs ha).forwardPackets hrecvs

theorem FinReached.not_waiting {s : Sys} (h : FinReached s) (hack : FinAcked s) : ¬ Waiting s := by
  rcases h hack with hpc | ⟨hpc, hne⟩
  · simp [Waiting, hpc]
  · simpa [Waiting, hpc] using hne

/-- **A client that waits on relays that have stopped waits for ever.** -/
theorem waiting_forever {s t : Sys} {es : List Event} (hstopped : s.isLast = 1) (hw : Waiting s)
    (h : run step s es = some t) : t.isLast = 1 ∧ Waiting t := by
  refine run_invariant (I := fun s => s.isLast = 1 ∧ Waiting s) ?_ ⟨hstopped, hw⟩ h
  rintro s e t ⟨hstopped, hw⟩ ht
  cases step_cases ht with
  | send hpc => simp [Waiting, hpc] at hw
  | sendFin hpc => simp [Waiting, hpc] at hw
  | resend hpc => exact ⟨hstopped, hw⟩
  | resendFin hpc => exact ⟨hstopped, hw⟩
  | @readAck i _ _ hpc hx =>
      have hnil : s.toClient i = [] := by simpa [Waiting, hpc] using hw
      simp [hnil] at hx
  | readFin hpc hx =>
      have hnil : s.toClient 0 = [] := by simpa [Waiting, hpc] using hw
      simp [hnil] at hx
  | served hp => exact ⟨hstopped, hw⟩
  | pass hrunning _ _ => exact absurd hstopped hrunning
  | passAck hrunning _ _ _ => exact absurd hstopped hrunning

/-! ### The exact condition -/

/-- A step keeps the order exactly when it is orderly: only a pass sets `is_last`, and no pass is made
after it has ended the loop. -/
theorem orderly_step {s t : Sys} {e : Event} (hs : Traced s) (ht : step s e = some t) :
    (t.isLast = 1 → FinAcked t) ↔ (s.isLast = 1 → FinAcked s) ∧ Orderly s e := by
  have hpass : ∀ {ack recvs}, e = .pass ack recvs → s.isLast ≠ 1 →
      ((t.isLast = 1 → FinAcked t) ↔ (s.isLast = 1 → FinAcked s) ∧ Orderly s e) := by
    rintro ack recvs rfl hrunning
    rw [pass_isLast ht, pass_finAcked hs ht, and_iff_right fun hlast => absurd hlast hrunning]
    rfl
  cases step_cases ht with
  | send hpc => exact (and_iff_left trivial).symm
  | sendFin hpc => exact (and_iff_left trivial).symm
  | resend hpc => exact (and_iff_left trivial).symm
  | resendFin hpc => exact (and_iff_left trivial).symm
  | readAck hpc hx => exact (and_iff_left trivial).symm
  | readFin hpc hx => exact (and_iff_left trivial).symm
  | served hp => exact (and_iff_left trivial).symm
  | pass hrunning _ _ => exact hpass rfl hrunning
  | passAck hrunning _ _ _ => exact hpass rfl hrunning

/-- The step of an orderly run, before the acknowledgement of the FIN has come. -/
theorem orderly_iff {s : Sys} {e : Event} (hnot : ¬ FinAcked s) (hreturns : ¬ FinAckReturns s e) :
    Orderly s e ↔ e.DataFollows s := by
  cases e with
  | pass ack recvs =>
      have hneither : ¬ (FinAcked s ∨ FinAckReturns s (.pass ack recvs)) := not_or.2 ⟨hnot, hreturns⟩
      rw [Event.DataFollows, dataFollows_iff, Orderly, imp_iff_not hneither]
      rfl
  | write => exact Iff.rfl
  | timeout => exact Iff.rfl
  | read n => exact Iff.rfl
  | serve n => exact Iff.rfl

/-- After the acknowledgement of the FIN every run is orderly. -/
theorem along_orderly_of_finAcked {s t : Sys} {es : List Event} (hs : Traced s) (hack : FinAcked s)
    (h : run step s es = some t) : Along step Orderly s es := by
  induction es generalizing s with
  | nil => trivial
  | cons e es ih =>
      obtain ⟨u, hu, hrun⟩ := run_cons_eq_some.1 h
      refine (along_cons_of_step hu).2
        ⟨?_, ih (hs.step hu) ((finAcked_step hs hu).2 (Or.inl hack)) hrun⟩
      cases e with
      | pass ack recvs => exact fun _ => Or.inl hack
      | _ => trivial

/-- The runs in which the acknowledgement of the FIN has not come yet. -/
theorem along_orderly_iff {s t : Sys} {es : List Event} (hs : Traced s) (hnot : ¬ FinAcked s)
    (h : run step s es = some t) : Along step Orderly s es ↔ Timely s es := by
  induction es generalizing s with
  | nil => exact Iff.rfl
  | cons e es ih =>
      obtain ⟨u, hu, hrun⟩ := run_cons_eq_some.1 h
      rw [along_cons_of_step hu, Timely, hu]
      dsimp only
      by_cases hreturns : FinAckReturns s e
      · have horderly : Orderly s e := by
          cases e with
          | pass ack recvs => exact fun _ => Or.inr hreturns
          | _ => exact hreturns.elim
        have hack : FinAcked u := (finAcked_step hs hu).2 (Or.inr hreturns)
        exact iff_of_true ⟨horderly, along_orderly_of_finAcked (hs.step hu) hack hrun⟩
          (Or.inl hreturns)
      · have hnot' : ¬ FinAcked u := by
          rw [finAcked_step hs hu]
          exact not_or.2 ⟨hnot, hreturns⟩
        rw [or_iff_right hreturns, orderly_iff hnot hreturns, ih (hs.step hu) hnot' hrun]

/-- **The relays stop in an orderly way exactly when**, up to the first pass in which an
acknowledgement of the FIN comes while channel `0` is the last one heard, every FIN that they accept is
followed by a data packet in the same pass.  The client sends the FIN when all data is acknowledged, so
that such a packet is a late copy. -/
theorem orderlyExit_iff {file : List Byte} {es : List Event} {s : Sys}
    (h : run step (Sys.init file) es = some s) : OrderlyExit s ↔ Timely (Sys.init file) es := by
  have hinit : Traced (Sys.init file) ∧ FinReached (Sys.init file) :=
    ⟨traced_init file, fun ⟨f, hf, _⟩ => nomatch hf⟩
  have hkept : ∀ s e t, Traced s ∧ FinReached s → step s e = some t → Traced t ∧ FinReached t :=
    fun s e t hs ht => ⟨hs.1.step ht, hs.2.step hs.1 ht⟩
  have hreached : FinReached s := (run_invariant hkept hinit h).2
  have hexit : OrderlyExit s ↔ (s.isLast = 1 → FinAcked s) :=
    ⟨fun hs hlast => (hs hlast).1,
      fun hs hlast => ⟨hs hlast, hreached.not_waiting (hs hlast)⟩⟩
  have hnot : ¬ FinAcked (Sys.init file) := fun ⟨f, hf, _⟩ => nomatch hf
  rw [hexit, run_iff_along hkept (fun s e t hs ht => orderly_step hs.1 ht) hinit h, and_iff_right,
    along_orderly_iff (traced_init file) hnot h]
  intro hlast
  cases hlast

/-- Five bytes: the relays accept a late copy of the packet of channel `1` after the FIN, in the same
pass, then receive the FIN again and drop it, and at last forward the acknowledgement of the FIN. -/
def lateCopy : List Event :=
  [.write, .write, .pass none [⟨0, 0, false⟩], .serve 0, .pass (some (0, 0)) [], .read 0,
    .timeout, .pass none [⟨1, 0, false⟩], .serve 0, .pass (some (0, 1)) [], .read 0,
    .write, .pass none [⟨0, 0, false⟩, ⟨1, 0, false⟩], .serve 0, .timeout,
    .pass none [⟨0, 0, true⟩], .pass (some (0, 2)) []]

theorem orderlyExit_lateCopy : ∃ s, run step (Sys.init [104, 101, 108, 108, 111]) lateCopy = some s ∧
    s.isLast = 1 ∧ OrderlyExit s :=
  ⟨_, rfl, by decide, (@orderlyExit_iff [104, 101, 108, 108, 111] lateCopy _ rfl).2 (by decide)⟩

/-- The empty file: its packet is acknowledged, and then the relays accept the FIN. -/
def finOnly : List Event :=
  [.write, .pass none [⟨0, 0, false⟩], .serve 0, .pass (some (0, 0)) [], .read 0, .write,
    .pass none [⟨0, 0, false⟩]]

/-- **The FIN packet stops the relays**: no acknowledgement of a FIN was forwarded, and whatever
happens from then on, the client waits for one. -/
theorem not_orderlyExit : ∃ s, run step (Sys.init []) finOnly = some s ∧ s.isLast = 1 ∧
    (∀ f ∈ s.forwarded, f.1.header.isLast ≠ 1) ∧
    (∀ es t, run step s es = some t → t.isLast = 1 ∧ Waiting t) ∧ ¬ OrderlyExit s := by
  refine ⟨_, rfl, by decide, by decide, ?_, ?_⟩
  · intro es t h
    refine waiting_forever ?_ ?_ h
    · decide
    · exact rfl
  · intro h
    exact (h (by decide)).2 rfl

end SelectiveRepeat
