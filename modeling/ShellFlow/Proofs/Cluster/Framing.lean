import ShellFlow.Cluster.Message
import ShellFlow.Proofs.Text

/-!
# Messages survive any cutting of the stream

A transport hands out octets in packets whose sizes nobody promises.  A reader that asks again until
it has the octets that it needs gets them all, and none of those behind them, so the messages of a
stream come out as they went in.
-/

namespace ShellFlow

open List

theorem Message.length_encode (body : Octets) : (Message.encode body).length = 4 + body.length := by
  simp [Message.encode]

namespace Transport

variable {t : Transport} {body : Octets}

/-- Every packet has an octet as long as there are any. -/
def Flows (t : Transport) : Prop := ∀ n, 0 < t.sizes n

/-! ### Octets -/

/-- The transport behind some of its octets, which came in some packets. -/
def behind (t : Transport) (count packets : Nat) : Transport :=
  { t with pending := t.pending.drop count, received := t.received + packets }

theorem behind_behind (t : Transport) (m n p q : Nat) :
    (t.behind m p).behind n q = t.behind (m + n) (p + q) := by
  simp [behind, Nat.add_assoc]

theorem behind_flows (h : t.Flows) (count packets : Nat) : (t.behind count packets).Flows := h

/-- A packet brings between one and as many octets as were asked for. -/
theorem receive_eq (h : t.Flows) {most : Nat} (hmost : 0 < most) :
    ∃ n, 0 < n ∧ n ≤ most ∧ t.receive most = (t.pending.take n, t.behind n 1) :=
  ⟨min most (t.sizes t.received), Nat.lt_min.2 ⟨hmost, h _⟩, Nat.min_le_left .., rfl⟩

/-- **Octets that are there are received**, and those behind them stay.  The induction is on how
many are still missing. -/
theorem receiveAll_of_le (h : t.Flows) (count : Nat) (hle : count ≤ t.pending.length) :
    ∃ packets, t.receiveAll count = (some (t.pending.take count), t.behind count packets) := by
  induction count using Nat.strongRecOn generalizing t with
  | _ count ih =>
    by_cases hzero : count = 0
    · subst hzero
      exact ⟨0, by simp [receiveAll, behind]⟩
    · obtain ⟨n, hpos, hmost, hreceive⟩ := receive_eq h (Nat.pos_of_ne_zero hzero)
      have hlength : (t.pending.take n).length = n := by
        rw [length_take]
        omega
      have hsome : (t.pending.take n).isEmpty = false := by
        rw [isEmpty_eq_false_iff, ← length_pos_iff, hlength]
        exact hpos
      have hrest : count - n ≤ (t.behind n 1).pending.length := by
        simp only [behind, length_drop]
        omega
      obtain ⟨packets, hmore⟩ := ih (count - n) (by omega) (behind_flows h n 1) hrest
      refine ⟨1 + packets, ?_⟩
      rw [receiveAll, if_neg hzero, hreceive]
      simp only [hsome, Bool.false_eq_true, if_false, hlength, hmore, Option.map_some,
        behind_behind]
      have hcount : n + (count - n) = count := by omega
      rw [hcount, behind, ← take_add, hcount]

/-- Octets that end too soon are all taken, and nothing is received. -/
theorem receiveAll_of_lt (h : t.Flows) (count : Nat) (hlt : t.pending.length < count) :
    ∃ packets, t.receiveAll count = (none, t.behind t.pending.length packets) := by
  induction count using Nat.strongRecOn generalizing t with
  | _ count ih =>
    have hzero : count ≠ 0 := by omega
    obtain ⟨n, hpos, hmost, hreceive⟩ := receive_eq h (Nat.pos_of_ne_zero hzero)
    by_cases hend : t.pending = []
    · refine ⟨1, ?_⟩
      rw [receiveAll, if_neg hzero, hreceive]
      simp [behind, hend]
    · have hsome : (t.pending.take n).isEmpty = false := by
        rw [isEmpty_eq_false_iff, ne_eq, take_eq_nil_iff, not_or]
        exact ⟨by omega, hend⟩
      have hlength : (t.pending.take n).length = min n t.pending.length := length_take ..
      have hrest : (t.behind n 1).pending.length = t.pending.length - n := length_drop ..
      obtain ⟨packets, hmore⟩ := ih (count - min n t.pending.length) (by
        have := length_pos_iff.2 hend
        omega) (behind_flows h n 1) (by omega)
      refine ⟨1 + packets, ?_⟩
      rw [receiveAll, if_neg hzero, hreceive]
      simp only [hsome, Bool.false_eq_true, if_false, hlength, hmore, Option.map_none,
        behind_behind, hrest]
      by_cases hn : n ≤ t.pending.length
      · rw [Nat.add_sub_cancel' hn]
      · simp only [behind, Prod.mk.injEq, Transport.mk.injEq, true_and, and_true]
        rw [drop_length, drop_eq_nil_of_le (by omega)]

/-! ### Messages -/

/-- **A message is received**, whatever is behind it, and what is behind it stays. -/
theorem receiveMessage_encode (h : t.Flows) {rest : Octets} (hshort : body.length < Octets.range 32)
    (hpending : t.pending = Message.encode body ++ rest) :
    ∃ packets, t.receiveMessage = (some body, t.behind (Message.encode body).length packets) := by
  have hencode : t.pending = Octets.big 4 body.length ++ (body ++ rest) := by
    rw [hpending, Message.encode, List.append_assoc]
  obtain ⟨first, hfirst⟩ := receiveAll_of_le h 4 (by simp [hencode])
  have hbody : (t.behind 4 first).pending = body ++ rest := by
    rw [behind, hencode, drop_left' (Octets.length_big 4 _)]
  obtain ⟨second, hsecond⟩ :=
    receiveAll_of_le (behind_flows h 4 first) body.length (by simp [hbody])
  refine ⟨first + second, ?_⟩
  rw [receiveMessage, hfirst]
  show (t.behind 4 first).receiveAll (Octets.ofBig (t.pending.take 4)) = _
  rw [hencode, take_left' (Octets.length_big 4 _), Octets.ofBig_big 4 _ hshort, hsecond, hbody,
    take_left, behind_behind, Message.length_encode]

/-- **A message that is cut off is not received**, be it in its length or in its body.  Nothing is
left. -/
theorem receiveMessage_cut (h : t.Flows) (body : Octets) (hshort : body.length < Octets.range 32)
    (hcut : t.pending <+: Message.encode body) (hne : t.pending ≠ Message.encode body) :
    ∃ packets, t.receiveMessage = (none, t.behind t.pending.length packets) := by
  have hlt : t.pending.length < 4 + body.length := by
    rw [← Message.length_encode]
    exact Nat.lt_of_le_of_ne hcut.length_le fun heq => hne (hcut.eq_of_length heq)
  by_cases hhead : t.pending.length < 4
  · obtain ⟨packets, hnone⟩ := receiveAll_of_lt h 4 hhead
    exact ⟨packets, by rw [receiveMessage, hnone]⟩
  · obtain ⟨first, hfirst⟩ := receiveAll_of_le h 4 (by omega)
    have hlength : t.pending.take 4 = Octets.big 4 body.length := by
      rw [prefix_iff_eq_take.1 hcut, take_take, Message.encode, Nat.min_eq_left (by omega),
        take_left' (Octets.length_big 4 _)]
    have hleft : (t.behind 4 first).pending.length = t.pending.length - 4 := length_drop ..
    obtain ⟨second, hsecond⟩ :=
      receiveAll_of_lt (behind_flows h 4 first) body.length (by omega)
    refine ⟨first + second, ?_⟩
    rw [receiveMessage, hfirst]
    show (t.behind 4 first).receiveAll (Octets.ofBig (t.pending.take 4)) = _
    rw [hlength, Octets.ofBig_big 4 _ hshort, hsecond, behind_behind, hleft,
      Nat.add_sub_cancel' (by omega)]

/-- Behind the end of the octets there is no message. -/
theorem receiveMessages_of_nil (h : t.Flows) (hend : t.pending = []) (calls : Nat) :
    t.receiveMessages calls = List.replicate calls none := by
  induction calls generalizing t with
  | zero => rfl
  | succ _ ih =>
    obtain ⟨packets, hnone⟩ := receiveMessage_cut h [] (by decide)
      (by rw [hend]; exact nil_prefix) (by rw [hend]; decide)
    rw [receiveMessages, hnone, replicate_succ]
    exact congrArg (none :: ·) (ih (behind_flows h _ _) (by simp [behind]))

/-- **Messages survive any cutting of the stream.**  Some messages are on their way, and behind them
the beginning of one more, which may be nothing at all and is not the whole message.  However the
octets come in packets, the messages are received in their order, and after them nothing. -/
theorem receiveMessages_encode (messages : List Octets) {rest cut : Octets} (hflows : t.Flows)
    (hshort : ∀ body ∈ messages, body.length < Octets.range 32)
    (hlast : cut.length < Octets.range 32) (hcut : rest <+: Message.encode cut)
    (hne : rest ≠ Message.encode cut)
    (hpending : t.pending = messages.flatMap Message.encode ++ rest) (calls : Nat) :
    t.receiveMessages (messages.length + calls) =
      messages.map some ++ List.replicate calls none := by
  induction messages generalizing t with
  | nil =>
    have hrest : t.pending = rest := hpending
    rw [List.length_nil, Nat.zero_add, List.map_nil, List.nil_append]
    cases calls with
    | zero => rfl
    | succ calls =>
      obtain ⟨packets, hnone⟩ := receiveMessage_cut hflows cut hlast (hrest ▸ hcut) (hrest ▸ hne)
      rw [receiveMessages, hnone, List.replicate_succ]
      exact congrArg (none :: ·)
        (receiveMessages_of_nil (behind_flows hflows _ _) (by simp [behind]) calls)
  | cons body messages ih =>
    obtain ⟨hbody, hmessages⟩ := List.forall_mem_cons.1 hshort
    rw [List.flatMap_cons, List.append_assoc] at hpending
    obtain ⟨packets, hreceived⟩ := receiveMessage_encode hflows hbody hpending
    have hbehind : (t.behind (Message.encode body).length packets).pending =
        messages.flatMap Message.encode ++ rest := by
      rw [behind, hpending, List.drop_left]
    rw [List.length_cons, Nat.add_right_comm, receiveMessages, hreceived, List.map_cons,
      List.cons_append]
    exact congrArg (some body :: ·) (ih (behind_flows hflows _ _) hmessages hbehind)

/-- Three messages, one of them empty, in packets of one to three octets.  The stream ends in the
body of a fourth message. -/
def brokenOff : Transport where
  pending := [[1, 2, 3], [], [7]].flatMap Message.encode ++ (Message.encode [9, 9]).take 5
  sizes n := n % 3 + 1

theorem receiveMessages_encode_brokenOff :
    brokenOff.Flows ∧ brokenOff.receiveMessages 5 =
    [some [1, 2, 3], some [], some [7], none, none] := by
  have hflows : brokenOff.Flows := fun n => Nat.succ_pos _
  exact ⟨hflows, receiveMessages_encode [[1, 2, 3], [], [7]] hflows (by decide) (by decide)
    (List.take_prefix 5 _)
    (by decide) rfl 2⟩

end Transport

end ShellFlow
