import Mathlib.Logic.Relation
import ShellFlow.Graph.Buffer
import ShellFlow.Proofs.Graph.Parts

/-!
# Views with buffers

A buffer on an edge reads the edge and writes a fresh one, and whoever read the edge reads the fresh
one instead.  Buffers may stand one behind the other, and may be put on an edge at different times.
Still every node reads, position by position, an edge that comes from the edge it read before
through buffers alone.
-/

namespace ShellFlow

open List
open Relation (ReflTransGen)

variable {f : Int → Int} {i : Int} {m m' n : Node}

/-- The node is a buffer from one edge to another. -/
structure Node.IsBuffer (n : Node) (a c : Int) : Prop where
  kind : n.kind = .tee
  inputs : n.inputs = [a]
  outputs : n.outputs = [c]

theorem Node.makes_tee {input output : Int} (h : input ≠ output) :
    Makes (Node.tee input output) [input] [output] fun n => n.kind = .tee := by
  have hnodup : ([output] ++ [input]).Nodup := nodup_pair (Ne.symm h)
  exact makes_make (Invocation.ofAccess_splitting hnodup) fun _ => rfl

/-- The number that an edge has for its reader, once there is a buffer on the edge `i` that writes
`c`. -/
def passed (i c j : Int) : Int := if j = i then c else j

theorem passed_self (i c : Int) : passed i c i = c := if_pos rfl

theorem passed_of_ne {j : Int} (h : j ≠ i) (c : Int) : passed i c j = j := if_neg h

/-- The node `m'` is `m`, reading from renamed edges. -/
structure Node.Renamed (f : Int → Int) (m m' : Node) : Prop where
  node : m' = { m with invocation := m'.invocation }
  command : m'.invocation.command = m.invocation.command
  inputs : m'.inputs = m.inputs.map f
  outputs : m'.outputs = m.outputs

theorem Node.Renamed.id_eq (h : m.Renamed f m') : m'.id = m.id := by
  rw [h.node]

theorem Node.Renamed.kind_eq (h : m.Renamed f m') : m'.kind = m.kind := by
  rw [h.node]

theorem Node.Renamed.refl (m : Node) : m.Renamed (fun j => j) m := ⟨rfl, rfl, (map_id _).symm, rfl⟩

theorem Node.Renamed.trans {f' : Int → Int} {m'' : Node} (h : m.Renamed f m')
    (h' : m'.Renamed f' m'') : m.Renamed (fun j => f' (f j)) m'' := by
  refine ⟨?_, h'.command.trans h.command, ?_, h'.outputs.trans h.outputs⟩
  · rw [h'.node, h.node]
  · rw [h'.inputs, h.inputs, map_map]
    rfl

theorem Node.renamed_replaceEdge {c : Int} (h : i ∉ n.outputs) :
    n.Renamed (passed i c) (n.replaceEdge i c) := by
  refine ⟨rfl, rfl, Node.inputs_replaceEdge n i c, ?_⟩
  rw [Node.outputs_replaceEdge, Invocation.replaceIn]
  have hne : ∀ j ∈ n.outputs, j ≠ i := fun j hj heq => h (heq ▸ hj)
  exact (map_congr_left fun j hj => if_neg (hne j hj)).trans (map_id _)

theorem Node.renamed_of_notMem (h : i ∉ n.inputs) (c : Int) : n.Renamed (passed i c) n := by
  refine ⟨rfl, rfl, ?_, rfl⟩
  have hne : ∀ j ∈ n.inputs, j ≠ i := fun j hj heq => h (heq ▸ hj)
  exact ((map_congr_left fun j hj => passed_of_ne (hne j hj) c).trans (map_id _)).symm

namespace View

variable {a c : Int}

/-- No node reads an edge that it writes. -/
def NoLoop (v : View) : Prop := ∀ k m, v.node k = some m → ∀ i ∈ m.inputs, i ∉ m.outputs

/-- The view with the buffer `n` on the edge `i`; it writes the edge `c`. -/
def buffer (v : View) (i c : Int) (n : Node) : View where
  node k :=
    if k = n.id then some n
    else if v.target i = some k then (v.node k).map (·.replaceEdge i c)
    else v.node k
  source j := if j = c then some n.id else v.source j
  target j := if j = i then some n.id else if j = c then v.target i else v.target j

variable {v₀ v v' : View} {count next count' next' j k : Int}

/-! ### One buffer -/

theorem buffer_node_self (v : View) (i c : Int) (n : Node) : (v.buffer i c n).node n.id = some n :=
    if_pos rfl

theorem buffer_source_self (v : View) (i c : Int) (n : Node) :
    (v.buffer i c n).source c = some n.id := if_pos rfl

theorem buffer_source_of_ne (v : View) (n : Node) (h : j ≠ c) :
    (v.buffer i c n).source j = v.source j :=
  if_neg h

theorem buffer_target_self (v : View) (i c : Int) (n : Node) :
    (v.buffer i c n).target i = some n.id := if_pos rfl

theorem buffer_target_fresh (v : View) (n : Node) (h : c ≠ i) :
    (v.buffer i c n).target c = v.target i := by
  show (if c = i then some n.id else if c = c then v.target i else v.target c) = v.target i
  rw [if_neg h, if_pos rfl]

theorem buffer_target_of_ne (v : View) (n : Node) (hi : j ≠ i) (hc : j ≠ c) :
    (v.buffer i c n).target j = v.target j := by
  show (if j = i then some n.id else if j = c then v.target i else v.target j) = v.target j
  rw [if_neg hi, if_neg hc]

/-- Every node that was there reads under the new number what it read before. -/
theorem Sound.buffer_node (h : v.Sound count next) (hloop : v.NoLoop) (hid : count ≤ n.id)
    (hm : v.node k = some m) (c : Int) : ∃ m', (v.buffer i c n).node k = some m' ∧
    m.Renamed (passed i c) m' := by
  have hlt := h.id_lt hm
  have hne : k ≠ n.id := by omega
  by_cases ht : v.target i = some k
  · obtain ⟨m₁, hm₁, hi⟩ := (h.target i k).1 ht
    obtain rfl := Option.mem_unique hm hm₁
    refine ⟨m.replaceEdge i c, ?_, Node.renamed_replaceEdge (hloop k m hm i hi)⟩
    simp [View.buffer, hne, ht, hm]
  · have hi : i ∉ m.inputs := fun hi => ht ((h.target i k).2 ⟨m, hm, hi⟩)
    exact ⟨m, by simp [View.buffer, hne, ht, hm], Node.renamed_of_notMem hi c⟩

/-- Every node of the view with a buffer is the buffer, or was there. -/
theorem Sound.of_buffer_node (h : v.Sound count next) (hloop : v.NoLoop) (hid : count ≤ n.id)
    (hm' : (v.buffer i c n).node k = some m') :
    (k = n.id ∧ m' = n) ∨ ∃ m, v.node k = some m ∧ m.Renamed (passed i c) m' := by
  by_cases hk : k = n.id
  · subst hk
    rw [buffer_node_self] at hm'
    exact .inl ⟨rfl, (Option.some.inj hm').symm⟩
  · cases hm : v.node k with
    | none => simp [View.buffer, hk, hm] at hm'
    | some m =>
      obtain ⟨m₁, hm₁, hrenamed⟩ := h.buffer_node hloop hid hm c
      obtain rfl := Option.mem_unique hm' hm₁
      exact .inr ⟨m, rfl, hrenamed⟩

theorem passed_lt (hj : j < next) : passed i next j < next + 1 := by
  unfold passed
  split <;> omega

/-- **A buffer keeps a view sound.** -/
theorem Sound.buffer (h : v.Sound count next) (hloop : v.NoLoop) (hi : i < next)
    (hid : count ≤ n.id) (hn : n.IsBuffer i next) :
    (v.buffer i next n).Sound (n.id + 1) (next + 1) := by
  have hnode : ∀ {k m'}, (v.buffer i next n).node k = some m' →
      (k = n.id ∧ m' = n) ∨ ∃ m, v.node k = some m ∧ m.Renamed (passed i next) m' :=
    fun hm' => h.of_buffer_node hloop hid hm'
  constructor
  case id_eq =>
    intro k m' hm'
    rcases hnode hm' with ⟨rfl, rfl⟩ | ⟨m, hm, hrenamed⟩
    · rfl
    · exact hrenamed.id_eq.trans (h.id_eq hm)
  case id_lt =>
    intro k m' hm'
    rcases hnode hm' with ⟨rfl, rfl⟩ | ⟨m, hm, -⟩
    · omega
    · have := h.id_lt hm
      omega
  case source =>
    intro j k
    constructor
    · intro hs
      by_cases hj : j = next
      · subst hj
        rw [buffer_source_self] at hs
        cases hs
        exact ⟨n, buffer_node_self _ _ _ _, by simp [hn.outputs]⟩
      · rw [buffer_source_of_ne v n hj] at hs
        obtain ⟨m, hm, hmem⟩ := (h.source j k).1 hs
        obtain ⟨m', hm', hrenamed⟩ := h.buffer_node hloop hid hm next
        exact ⟨m', hm', hrenamed.outputs ▸ hmem⟩
    · rintro ⟨m', hm', hmem⟩
      rcases hnode hm' with ⟨rfl, rfl⟩ | ⟨m, hm, hrenamed⟩
      · obtain rfl : j = next := by simpa [hn.outputs] using hmem
        exact buffer_source_self _ _ _ _
      · rw [hrenamed.outputs] at hmem
        have hlt := h.outputs_lt hm j hmem
        rw [buffer_source_of_ne v n (by omega)]
        exact (h.source j k).2 ⟨m, hm, hmem⟩
  case target =>
    intro j k
    constructor
    · intro ht
      by_cases hji : j = i
      · subst hji
        rw [buffer_target_self] at ht
        cases ht
        exact ⟨n, buffer_node_self _ _ _ _, by simp [hn.inputs]⟩
      · -- the fresh edge is read by the node that read the edge in front of the buffer
        have hback : ∃ j', v.target j' = some k ∧ passed i next j' = j := by
          by_cases hj : j = next
          · subst hj
            rw [buffer_target_fresh v n (by omega)] at ht
            exact ⟨i, ht, passed_self _ _⟩
          · rw [buffer_target_of_ne v n hji hj] at ht
            exact ⟨j, ht, passed_of_ne hji _⟩
        obtain ⟨j', ht', rfl⟩ := hback
        obtain ⟨m, hm, hmem⟩ := (h.target j' k).1 ht'
        obtain ⟨m', hm', hrenamed⟩ := h.buffer_node hloop hid hm next
        refine ⟨m', hm', ?_⟩
        rw [hrenamed.inputs]
        exact mem_map_of_mem hmem
    · rintro ⟨m', hm', hmem⟩
      rcases hnode hm' with ⟨rfl, rfl⟩ | ⟨m, hm, hrenamed⟩
      · obtain rfl : j = i := by simpa [hn.inputs] using hmem
        exact buffer_target_self _ _ _ _
      · rw [hrenamed.inputs] at hmem
        obtain ⟨j', hj', rfl⟩ := mem_map.1 hmem
        have hlt := h.inputs_lt hm j' hj'
        have ht := (h.target j' k).2 ⟨m, hm, hj'⟩
        by_cases hji : j' = i
        · subst hji
          rw [passed_self, buffer_target_fresh v n (by omega)]
          exact ht
        · rw [passed_of_ne hji, buffer_target_of_ne v n hji (by omega)]
          exact ht
  case inputs_lt =>
    intro k m' hm' j hj
    rcases hnode hm' with ⟨rfl, rfl⟩ | ⟨m, hm, hrenamed⟩
    · obtain rfl : j = i := by simpa [hn.inputs] using hj
      omega
    · rw [hrenamed.inputs] at hj
      obtain ⟨j', hj', rfl⟩ := mem_map.1 hj
      exact passed_lt (h.inputs_lt hm j' hj')
  case outputs_lt =>
    intro k m' hm' j hj
    rcases hnode hm' with ⟨rfl, rfl⟩ | ⟨m, hm, hrenamed⟩
    · obtain rfl : j = next := by simpa [hn.outputs] using hj
      omega
    · rw [hrenamed.outputs] at hj
      have := h.outputs_lt hm j hj
      omega

theorem NoLoop.buffer (hloop : v.NoLoop) (h : v.Sound count next) (hi : i < next)
    (hid : count ≤ n.id) (hn : n.IsBuffer i next) : (v.buffer i next n).NoLoop := by
  intro k m' hm' j hj hj'
  rcases h.of_buffer_node hloop hid hm' with ⟨rfl, rfl⟩ | ⟨m, hm, hrenamed⟩
  · rw [hn.inputs, mem_singleton] at hj
    rw [hn.outputs, mem_singleton] at hj'
    omega
  · rw [hrenamed.inputs] at hj
    rw [hrenamed.outputs] at hj'
    obtain ⟨j₁, hj₁, rfl⟩ := mem_map.1 hj
    have hlt := h.outputs_lt hm _ hj'
    have hne : j₁ ≠ i := by
      rintro rfl
      rw [passed_self] at hlt
      omega
    rw [passed_of_ne hne] at hj'
    exact hloop k m hm j₁ hj₁ hj'

/-! ### Buffers that were not there -/

/-- An edge is passed on to another through a buffer that was not there before. -/
def Buffers (v₀ v : View) (a c : Int) : Prop :=
  ∃ k n, v₀.node k = none ∧ v.node k = some n ∧ n.IsBuffer a c

/-- Whoever was passed an edge is passed it still, through one buffer more if it is put between. -/
theorem Buffers.buffer (hb : v₀.Buffers v a c) (h : v.Sound count next) (hloop : v.NoLoop)
    (hid : count ≤ n.id) (hn : n.IsBuffer i next) (hnew : v₀.node n.id = none) :
    ReflTransGen (v₀.Buffers (v.buffer i next n)) a c := by
  obtain ⟨k, m, hk, hm, hbuffer⟩ := hb
  obtain ⟨m', hm', hrenamed⟩ := h.buffer_node hloop hid hm next
  have hlast : v₀.Buffers (v.buffer i next n) (passed i next a) c := by
    refine ⟨k, m', hk, hm', ?_, ?_, ?_⟩
    · rw [hrenamed.kind_eq, hbuffer.kind]
    · rw [hrenamed.inputs, hbuffer.inputs]
      rfl
    · rw [hrenamed.outputs, hbuffer.outputs]
  by_cases ha : a = i
  · subst ha
    have hfirst : v₀.Buffers (v.buffer a next n) a next :=
      ⟨n.id, n, hnew, buffer_node_self _ _ _ _, hn⟩
    rw [passed_self] at hlast
    exact (ReflTransGen.single hfirst).tail hlast
  · rw [passed_of_ne ha] at hlast
    exact ReflTransGen.single hlast

theorem buffers_path (hpath : ReflTransGen (v₀.Buffers v) a c) (h : v.Sound count next)
    (hloop : v.NoLoop) (hid : count ≤ n.id) (hn : n.IsBuffer i next) (hnew : v₀.node n.id = none) :
    ReflTransGen (v₀.Buffers (v.buffer i next n)) a c := by
  induction hpath with
  | refl => exact ReflTransGen.refl
  | tail _ hstep ih => exact ih.trans (hstep.buffer h hloop hid hn hnew)

theorem lt_of_buffers_path (hpath : ReflTransGen (v₀.Buffers v) a c) (h : v.Sound count next)
    (ha : a < next) : c < next := by
  induction hpath with
  | refl => exact ha
  | tail _ hstep _ =>
    obtain ⟨k, m, -, hm, hbuffer⟩ := hstep
    exact h.outputs_lt hm _ (by simp [hbuffer.outputs])

/-! ### Many buffers -/

/-- Buffers are put on written edges, one after the other, with the next numbers for nodes and
edges. -/
inductive Inserts : View → Int → Int → View → Int → Int → Prop
  | refl {v : View} {count next : Int} : Inserts v count next v count next
  | tail {v v' : View} {count next count' next' i : Int} {n : Node} :
      Inserts v count next v' count' next' → i < next' → v'.source i ≠ none → count' ≤ n.id →
      n.IsBuffer i next' → Inserts v count next (v'.buffer i next' n) (n.id + 1) (next' + 1)

theorem Inserts.trans {v'' : View} {count'' next'' : Int} (h : Inserts v count next v' count' next')
    (h' : Inserts v' count' next' v'' count'' next'') :
    Inserts v count next v'' count'' next'' := by
  induction h' with
  | refl => exact h
  | tail _ hi hsource hid hn ih => exact .tail (ih h) hi hsource hid hn

/-- The nodes of `v₀` are nodes of `v`, which reads through new buffers what they read. -/
structure Buffering (v₀ v : View) (count next : Int) : Prop where
  sound : v.Sound count next
  noLoop : v.NoLoop
  unused (k : Int) : count ≤ k → v₀.node k = none
  kept (k : Int) (m : Node) : v₀.node k = some m → ∃ m' f, v.node k = some m' ∧ m.Renamed f m' ∧
    (∀ j ∈ m.inputs, ∀ j' ∈ m.inputs, f j = f j' → j = j') ∧
    ∀ j ∈ m.inputs, ReflTransGen (v₀.Buffers v) j (f j) ∧
      (v.source (f j) = none ↔ v₀.source j = none)
  added (k : Int) (n : Node) : v₀.node k = none → v.node k = some n → ∃ a c, n.IsBuffer a c

theorem Sound.buffering (h : v.Sound count next) (hloop : v.NoLoop) : v.Buffering v count next := by
  refine ⟨h, hloop, fun k => h.node_of_le, ?_, ?_⟩
  · intro k m hm
    exact ⟨m, fun j => j, hm, .refl m, fun _ _ _ _ heq => heq, fun j _ => ⟨.refl, Iff.rfl⟩⟩
  · intro k n hnone hsome
    rw [hnone] at hsome
    cases hsome

theorem passed_inj {j' : Int} (hj : j < next) (hj' : j' < next)
    (h : passed i next j = passed i next j') : j = j' := by
  unfold passed at h
  split at h <;> split at h <;> omega

theorem source_passed (hj : j < next) (hsource : v.source i ≠ none) :
    (v.buffer i next n).source (passed i next j) = none ↔ v.source j = none := by
  by_cases hji : j = i
  · subst hji
    rw [passed_self, buffer_source_self]
    simp [hsource]
  · rw [passed_of_ne hji, buffer_source_of_ne v n (by omega)]

/-- **One more buffer is put in.** -/
theorem Buffering.buffer (h : v₀.Buffering v count next) (hi : i < next)
    (hsource : v.source i ≠ none) (hid : count ≤ n.id) (hn : n.IsBuffer i next) :
    v₀.Buffering (v.buffer i next n) (n.id + 1) (next + 1) := by
  have hnew := h.unused n.id hid
  refine ⟨h.sound.buffer h.noLoop hi hid hn, h.noLoop.buffer h.sound hi hid hn, ?_, ?_, ?_⟩
  · intro k hk
    exact h.unused k (by omega)
  · intro k m hm
    obtain ⟨m', f, hm', hrenamed, hinj, hpath⟩ := h.kept k m hm
    obtain ⟨m'', hm'', hrenamed'⟩ := h.sound.buffer_node h.noLoop hid hm' next
    have hlt : ∀ j ∈ m.inputs, f j < next := by
      intro j hj
      refine h.sound.inputs_lt hm' (f j) ?_
      rw [hrenamed.inputs]
      exact mem_map_of_mem hj
    refine ⟨m'', _, hm'', hrenamed.trans hrenamed', ?_, ?_⟩
    · intro j hj j' hj' heq
      exact hinj j hj j' hj' (passed_inj (hlt j hj) (hlt j' hj') heq)
    · intro j hj
      obtain ⟨hto, hwritten⟩ := hpath j hj
      have hto := buffers_path hto h.sound h.noLoop hid hn hnew
      refine ⟨?_, (source_passed (hlt j hj) hsource).trans hwritten⟩
      by_cases hji : f j = i
      · -- the reader is passed the edge through the new buffer
        rw [hji, passed_self]
        rw [hji] at hto
        exact hto.tail ⟨n.id, n, hnew, buffer_node_self _ _ _ _, hn⟩
      · rw [passed_of_ne hji]
        exact hto
  · intro k m' hk hm'
    rcases h.sound.of_buffer_node h.noLoop hid hm' with ⟨rfl, rfl⟩ | ⟨m, hm, hrenamed⟩
    · exact ⟨i, next, hn⟩
    · obtain ⟨a, c, hbuffer⟩ := h.added k m hk hm
      refine ⟨passed i next a, c, ?_, ?_, ?_⟩
      · rw [hrenamed.kind_eq, hbuffer.kind]
      · rw [hrenamed.inputs, hbuffer.inputs]
        rfl
      · rw [hrenamed.outputs, hbuffer.outputs]

/-- What a node reads from nodes of `v₀`, it reads on the given edges. -/
def GuardedBut (v₀ v : View) (k : Int) (ids : List Int) : Prop :=
  ∀ m, v.node k = some m → ∀ j ∈ m.inputs, ∀ b, v.source j = some b → v₀.node b = none ∨ j ∈ ids

theorem GuardedBut.mono {ids ids' : List Int} (h : v₀.GuardedBut v k ids)
    (hsub : ∀ j ∈ ids, j ∈ ids') : v₀.GuardedBut v k ids' := by
  intro m hm j hj b hb
  exact (h m hm j hj b hb).imp id (hsub j)

/-- With a buffer on it, an edge needs no exception any more. -/
theorem GuardedBut.buffer {ids : List Int} (hguard : v₀.GuardedBut v k (i :: ids))
    (h : v₀.Buffering v count next) (hid : count ≤ n.id) (hold : k < count) :
    v₀.GuardedBut (v.buffer i next n) k ids := by
  intro m' hm' j hj b hb
  rcases h.sound.of_buffer_node h.noLoop hid hm' with ⟨rfl, -⟩ | ⟨m, hm, hrenamed⟩
  · omega
  · rw [hrenamed.inputs] at hj
    obtain ⟨j₁, hj₁, rfl⟩ := mem_map.1 hj
    by_cases hji : j₁ = i
    · subst hji
      rw [passed_self, buffer_source_self] at hb
      cases hb
      exact .inl (h.unused n.id hid)
    · have hlt := h.sound.inputs_lt hm j₁ hj₁
      rw [passed_of_ne hji, buffer_source_of_ne v n (by omega)] at hb
      rw [passed_of_ne hji]
      rcases hguard m hm j₁ hj₁ b hb with hnew | hmem
      · exact .inl hnew
      · exact .inr ((mem_cons.1 hmem).resolve_left hji)

/-- An edge leads, through buffers, to nothing or to a node with a property. -/
def Covered (v₀ v : View) (S : Int → Prop) (j : Int) : Prop :=
  ∃ j', ReflTransGen (v₀.Buffers v) j j' ∧ ∀ k, v.target j' = some k → S k

theorem Covered.mono {S S' : Int → Prop} (h : v₀.Covered v S j) (hsub : ∀ k, S k → S' k) :
    v₀.Covered v S' j := by
  obtain ⟨j', hpath, hS⟩ := h
  exact ⟨j', hpath, fun k hk => hsub k (hS k hk)⟩

theorem Covered.buffer {S : Int → Prop} (hcovered : v₀.Covered v S j)
    (h : v₀.Buffering v count next) (hj : j < next)
    (hi : i < next) (hid : count ≤ n.id) (hn : n.IsBuffer i next) :
    v₀.Covered (v.buffer i next n) S j := by
  have hnew := h.unused n.id hid
  obtain ⟨j', hpath, hS⟩ := hcovered
  have hlt := lt_of_buffers_path hpath h.sound hj
  have hpath' := buffers_path hpath h.sound h.noLoop hid hn hnew
  by_cases hji : j' = i
  · -- the new buffer passes on to whoever was reached before
    subst hji
    refine ⟨next, hpath'.tail ⟨n.id, n, hnew, buffer_node_self _ _ _ _, hn⟩, ?_⟩
    rw [buffer_target_fresh v n (by omega)]
    exact hS
  · refine ⟨j', hpath', ?_⟩
    rw [buffer_target_of_ne v n hji (by omega)]
    exact hS

namespace Inserts

section

variable (h : Inserts v count next v' count' next')
include h

/-- **Buffers are put in, one after the other.** -/
theorem buffering (hv : v₀.Buffering v count next) :
    v₀.Buffering v' count' next' := by
  induction h with
  | refl => exact hv
  | tail _ hi hsource hid hn ih => exact (ih hv).buffer hi hsource hid hn

theorem count_le : count ≤ count' := by
  induction h with
  | refl => exact Int.le_refl _
  | tail _ _ _ hid _ ih => omega

theorem next_le : next ≤ next' := by
  induction h with
  | refl => exact Int.le_refl _
  | tail _ _ _ _ _ ih => omega

theorem guarded (hv : v₀.Buffering v count next) (hold : k < count)
    (hguard : v₀.GuardedBut v k []) : v₀.GuardedBut v' k [] := by
  induction h with
  | refl => exact hguard
  | tail hfirst _ _ hid _ ih =>
    have hle := hfirst.count_le
    exact ((ih hv hold).mono (by simp)).buffer (hfirst.buffering hv) hid (by omega)

end

section

variable (h : Inserts v count next v' count' next') (hv : v₀.Buffering v count next)
include h hv

theorem covered {S : Int → Prop} (hj : j < next) (hcovered : v₀.Covered v S j) :
    v₀.Covered v' S j := by
  induction h with
  | refl => exact hcovered
  | tail hfirst hi _ hid hn ih =>
    have hle := hfirst.next_le
    exact (ih hv hj).buffer (hfirst.buffering hv) (by omega) hi hid hn

/-- A node that was there stays, with its inputs renamed. -/
theorem node (hm : v.node k = some m) : ∃ m' f, v'.node k = some m' ∧ m.Renamed f m' := by
  induction h with
  | refl => exact ⟨m, _, hm, .refl m⟩
  | tail hfirst _ _ hid _ ih =>
    obtain ⟨m₁, f, hm₁, hrenamed⟩ := ih hv
    have hbuffering := hfirst.buffering hv
    obtain ⟨m₂, hm₂, hrenamed'⟩ := hbuffering.sound.buffer_node hbuffering.noLoop hid hm₁ _
    exact ⟨m₂, _, hm₂, hrenamed.trans hrenamed'⟩

/-- A node was there, or has one of the next numbers. -/
theorem of_node (hm' : v'.node k = some m') :
    (∃ m f, v.node k = some m ∧ m.Renamed f m') ∨ count ≤ k := by
  induction h generalizing m' with
  | refl => exact .inl ⟨m', _, hm', .refl m'⟩
  | tail hfirst _ _ hid _ ih =>
    have hbuffering := hfirst.buffering hv
    have hle := hfirst.count_le
    rcases hbuffering.sound.of_buffer_node hbuffering.noLoop hid hm' with
      ⟨rfl, -⟩ | ⟨m₁, hm₁, hrenamed⟩
    · exact .inr (by omega)
    · rcases ih hv hm₁ with ⟨m, f, hm, hrenamed'⟩ | hk
      · exact .inl ⟨m, _, hm, hrenamed'.trans hrenamed⟩
      · exact .inr hk

end

end Inserts

end View

end ShellFlow
