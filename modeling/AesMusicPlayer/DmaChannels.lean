-- The channels of a DMA device. The driver reads them from the device tree, and
-- the library asks the driver for them and sorts their ids by type and direction.
import Mathlib.Data.List.Nodup
import Mathlib.Logic.Function.Basic
import Mathlib.Tactic.Common

namespace axidma

/-! ## The device tree -/

/-- A channel node. A property may be missing, and the id may be unreadable. -/
structure ChannelNode where
  device_id : Option (Option (BitVec 32))
  compatible : Option (List String)

/-- An entry of `dmas`: the arguments behind the phandle, and the channel nodes of the DMA. -/
structure DmaSpec where
  args : List (BitVec 32)
  children : List ChannelNode

/-- The node of the driver. Each property may be missing, and reading it may give an error. -/
structure DriverNode where
  dma_names : Option (Except Int (List String))
  dmas : Option (Except Int (List (Except Int DmaSpec)))

/-! ## The driver -/

inductive AxidmaDir
  | WRITE | READ
  deriving DecidableEq, Repr

inductive AxidmaType
  | DMA | VDMA
  deriving DecidableEq, Repr

abbrev Kind := AxidmaType × AxidmaDir

/-- `struct axidma_chan`. The memory of `kmalloc` may hold no value of the enumerations. -/
structure AxidmaChan where
  dir : Option AxidmaDir
  type : Option AxidmaType
  channel_id : Int
  name : String

/-- The type and direction, when both are there. -/
def AxidmaChan.kind (c : AxidmaChan) : Option Kind := c.type.bind fun t => c.dir.map fun d => (t, d)

/-- What is counted for each type and direction. -/
abbrev Counts := Kind → ℕ

def EINVAL : Int := 22
def ENOMEM : Int := 12
def ENODEV : Int := 19

inductive Failure
  | rc (e : Int)
  /-- a null pointer is read -/
  | oops
  deriving DecidableEq, Repr

/-- The kind that a `compatible` property names. -/
def compatible_kind (compatible : List String) : Option Kind :=
  if "xlnx,axi-dma-mm2s-channel" ∈ compatible then some (.DMA, .WRITE)
  else if "xlnx,axi-dma-s2mm-channel" ∈ compatible then some (.DMA, .READ)
  else if "xlnx,axi-vdma-mm2s-channel" ∈ compatible then some (.VDMA, .WRITE)
  else if "xlnx,axi-vdma-s2mm-channel" ∈ compatible then some (.VDMA, .READ)
  else none

def Counts.add (num : Counts) (k : Kind) : Counts := Function.update num k (num k + 1)

/-- A node without the property gets a message, but no error. -/
def axidma_parse_compatible_property (np : ChannelNode) (chan : AxidmaChan) (num : Counts) :
    Except Failure (AxidmaChan × Counts) :=
  match np.compatible with
  | none => .ok (chan, num)
  | some compatible =>
    match compatible_kind compatible with
    | some k => .ok ({ chan with type := some k.1, dir := some k.2 }, num.add k)
    | none => .error (.rc (-EINVAL))

/-- The node of a channel. The second one may be missing. -/
def channel_child (children : List ChannelNode) (channel : BitVec 32) : Option ChannelNode :=
  if channel = 1 then children[1]? else children[0]?

def axidma_of_parse_channel (children : List ChannelNode) (channel : BitVec 32)
    (chan : AxidmaChan) (num : Counts) : Except Failure (AxidmaChan × Counts) :=
  if children.length < 1 then .error (.rc (-EINVAL))
  else if children.length > 2 then .error (.rc (-EINVAL))
  else
    match channel_child children channel with
    -- the message about the missing node prints its name
    | none => .error .oops
    | some np =>
      match np.device_id with
      | some (some id) =>
        axidma_parse_compatible_property np { chan with channel_id := id.toInt } num
      | _ => .error (.rc (-EINVAL))

def axidma_of_parse_dma_name (names : List String) (index : ℕ) (chan : AxidmaChan) :
    Except Failure AxidmaChan :=
  match names[index]? with
  | some name => .ok { chan with name }
  | none => .error (.rc (-EINVAL))

/-- One pass of the loop over `dmas`. -/
def parse_dma_node (names : List String) (i : ℕ) (dma : Except Int DmaSpec) (chan : AxidmaChan)
    (num : Counts) : Except Failure (AxidmaChan × Counts) :=
  match dma with
  | .error rc => .error (.rc rc)
  | .ok ⟨[], _⟩ => .error (.rc (-EINVAL))
  | .ok ⟨channel :: _, children⟩ =>
    if channel ≠ 0 ∧ channel ≠ 1 then .error (.rc (-EINVAL))
    else do
      let (chan, num) ← axidma_of_parse_channel children channel chan num
      let chan ← axidma_of_parse_dma_name names i chan
      return (chan, num)

/-- `uninit` is what the memory for the channels holds before. -/
def parse_dma_nodes (names : List String) (uninit : ℕ → AxidmaChan) :
    ℕ → List (Except Int DmaSpec) → Counts → Except Failure (List AxidmaChan × Counts)
  | _, [], num => .ok ([], num)
  | i, dma :: dmas, num => do
    let (chan, num) ← parse_dma_node names i dma (uninit i) num
    let (chans, num) ← parse_dma_nodes names uninit (i + 1) dmas num
    return (chan :: chans, num)

def axidma_check_unique_ids : List AxidmaChan → Except Failure Unit
  | [] => .ok ()
  | chan1 :: chans =>
    if chans.any fun chan2 => chan1.channel_id == chan2.channel_id then .error (.rc (-EINVAL))
    else axidma_check_unique_ids chans

/-- The channels, and how many there are of each kind. -/
structure AxidmaDevice where
  channels : List AxidmaChan
  num_chans_of : Counts

/-- The names and the entries of `dmas`, of which there are as many. -/
def axidma_of_num_channels (node : DriverNode) :
    Except Failure (List String × List (Except Int DmaSpec)) :=
  match node.dma_names, node.dmas with
  | none, _ => .error (.rc (-EINVAL))
  | _, none => .error (.rc (-EINVAL))
  | some (.error _), _ => .error (.rc (-EINVAL))
  | some (.ok names), some dmas =>
    if names.length = 0 then .error (.rc (-EINVAL))
    else
      match dmas with
      | .error _ => .error (.rc (-EINVAL))
      | .ok dmas =>
        if dmas.length = 0 then .error (.rc (-EINVAL))
        else if names.length ≠ dmas.length then .error (.rc (-EINVAL))
        else .ok (names, dmas)

def axidma_of_parse_dma_nodes (names : List String) (dmas : List (Except Int DmaSpec))
    (uninit : ℕ → AxidmaChan) : Except Failure AxidmaDevice := do
  let (channels, num) ← parse_dma_nodes names uninit 0 dmas fun _ => 0
  axidma_check_unique_ids channels
  return ⟨channels, num⟩

/-- What the kernel answers while the device is set up. -/
structure InitAnswers where
  /-- `dma_set_coherent_mask` -/
  mask : Int
  channels : Bool
  cb_data : Bool
  uninit : ℕ → AxidmaChan
  /-- `dma_request_slave_channel` gives a channel for this name -/
  slave_channel : String → Bool

def axidma_dma_init (a : InitAnswers) (node : DriverNode) : Except Failure AxidmaDevice :=
  if a.mask < 0 then .error (.rc a.mask)
  else do
    let (names, dmas) ← axidma_of_num_channels node
    if !a.channels then .error (.rc (-ENOMEM))
    else if !a.cb_data then .error (.rc (-ENOMEM))
    else do
      let dev ← axidma_of_parse_dma_nodes names dmas a.uninit
      if dev.channels.all fun c => a.slave_channel c.name then return dev
      else .error (.rc (-ENODEV))

/-! ## The library -/

/-- An `array_t` with the places that `malloc` gave for it. -/
structure IdArray where
  places : ℕ
  data : List Int

/-- `dma_channel_t`, without the callback. -/
structure DmaChannel where
  dir : AxidmaDir
  type : AxidmaType
  channel_id : Int

structure AxidmaDev where
  chans : Kind → IdArray
  channels : List DmaChannel

namespace AxidmaDev

def dma_tx_chans (dev : AxidmaDev) : IdArray := dev.chans (.DMA, .WRITE)
def dma_rx_chans (dev : AxidmaDev) : IdArray := dev.chans (.DMA, .READ)
def vdma_tx_chans (dev : AxidmaDev) : IdArray := dev.chans (.VDMA, .WRITE)
def vdma_rx_chans (dev : AxidmaDev) : IdArray := dev.chans (.VDMA, .READ)

end AxidmaDev

inductive ProbeFailure
  | rc (e : Int)
  /-- `assert(array != NULL)` fails -/
  | no_array
  /-- an id is written behind the places of its array -/
  | overflow
  deriving DecidableEq, Repr

/-- One pass of the loop that places the ids. -/
def place_channel (dev : AxidmaDev) (chan : AxidmaChan) : Except ProbeFailure AxidmaDev :=
  match chan.type, chan.dir with
  | some type, some dir =>
    let array := dev.chans (type, dir)
    if array.data.length < array.places then
      let data := array.data ++ [chan.channel_id]
      .ok { chans := Function.update dev.chans (type, dir) { array with data }
            channels := dev.channels ++ [⟨dir, type, chan.channel_id⟩] }
    else .error .overflow
  | _, _ => .error .no_array

def place_channels : AxidmaDev → List AxidmaChan → Except ProbeFailure AxidmaDev
  | dev, [] => .ok dev
  | dev, chan :: chans => do
    let dev ← place_channel dev chan
    place_channels dev chans

/-- What the system answers while the library asks for the channels. -/
structure ProbeAnswers where
  /-- `AXIDMA_GET_NUM_DMA_CHANNELS` -/
  num_channels : Int
  /-- `AXIDMA_GET_DMA_CHANNELS` -/
  channels : Int
  /-- the calls of `malloc`, the first one for the answer of the driver -/
  malloc : ℕ → Bool

def categorize_channels (b : ProbeAnswers) (dev : AxidmaDevice) : Except ProbeFailure AxidmaDev :=
  if (List.range 5).all fun i => b.malloc (i + 1) then
    place_channels ⟨fun k => ⟨dev.num_chans_of k, []⟩, []⟩ dev.channels
  else .error (.rc (-ENOMEM))

def probe_channels (b : ProbeAnswers) (dev : AxidmaDevice) : Except ProbeFailure AxidmaDev :=
  if b.num_channels < 0 then .error (.rc b.num_channels)
  else if dev.channels.length = 0 then .error (.rc (-ENODEV))
  else if !b.malloc 0 then .error (.rc (-ENOMEM))
  else if b.channels < 0 then .error (.rc b.channels)
  else categorize_channels b dev

def find_channel (dev : AxidmaDev) (channel_id : Int) : Option DmaChannel :=
  dev.channels.find? fun c => c.channel_id == channel_id

/-! ## What the driver finds -/

/-- The channel nodes that `dmas` names, in their order. -/
def channel_nodes (dmas : List (Except Int DmaSpec)) : List ChannelNode :=
  dmas.filterMap fun dma =>
    match dma with
    | .ok ⟨channel :: _, children⟩ => channel_child children channel
    | _ => none

def DriverNode.nodes (node : DriverNode) : List ChannelNode :=
  match node.dmas with
  | some (.ok dmas) => channel_nodes dmas
  | _ => []

def ChannelNode.kind (n : ChannelNode) : Option Kind := n.compatible.bind compatible_kind

/-- What the channel has of its node. A node that is not compatible with anything leaves the type
and direction of the memory. -/
structure Describes (n : ChannelNode) (c : AxidmaChan) : Prop where
  id : ∃ id, n.device_id = some (some id) ∧ c.channel_id = id.toInt
  kind : n.compatible.isSome = true → n.kind.isSome = true ∧ c.kind = n.kind

/-- How many of the nodes are of a kind. -/
def nodes_of (nodes : List ChannelNode) (k : Kind) : ℕ := nodes.countP fun n => n.kind == some k

theorem bind_ok {ε α β : Type} {x : Except ε α} {f : α → Except ε β} {r : β} :
    x >>= f = .ok r ↔ ∃ a, x = .ok a ∧ f a = .ok r := by
  cases x <;> simp [bind, Except.bind]

theorem Counts.add_apply (num : Counts) (k k' : Kind) :
    num.add k k' = num k' + if k = k' then 1 else 0 := by
  unfold Counts.add
  by_cases h : k' = k
  · subst h
    simp
  · rw [Function.update_of_ne h, if_neg (Ne.symm h), Nat.add_zero]

theorem nodes_of_append (ns ms : List ChannelNode) (k : Kind) :
    nodes_of (ns ++ ms) k = nodes_of ns k + nodes_of ms k :=
  List.countP_append

theorem nodes_of_singleton (n : ChannelNode) (k : Kind) :
    nodes_of [n] k = if n.kind = some k then 1 else 0 := by
  simp [nodes_of]

theorem parse_compatible_ok {np : ChannelNode} {chan chan' : AxidmaChan} {num num' : Counts}
    (h : axidma_parse_compatible_property np chan num = .ok (chan', num')) :
    chan'.channel_id = chan.channel_id ∧
      (np.compatible.isSome = true → np.kind.isSome = true ∧ chan'.kind = np.kind) ∧
      ∀ k, num' k = num k + nodes_of [np] k := by
  unfold axidma_parse_compatible_property at h
  cases hc : np.compatible with
  | none =>
    rw [hc] at h
    cases h
    refine ⟨rfl, fun hno => absurd hno (by simp), fun k => ?_⟩
    simp [nodes_of_singleton, ChannelNode.kind, hc]
  | some compatible =>
    rw [hc] at h
    dsimp only at h
    cases hk : compatible_kind compatible with
    | none => rw [hk] at h; cases h
    | some kind =>
      rw [hk] at h
      cases h
      have hkind : np.kind = some kind := by simp [ChannelNode.kind, hc, hk]
      refine ⟨rfl, fun _ => ?_, fun k => ?_⟩
      · simp [hkind, AxidmaChan.kind]
      · simp [nodes_of_singleton, hkind, Counts.add_apply]

theorem parse_channel_ok {children : List ChannelNode} {channel : BitVec 32}
    {chan chan' : AxidmaChan} {num num' : Counts}
    (h : axidma_of_parse_channel children channel chan num = .ok (chan', num')) :
    ∃ n, channel_child children channel = some n ∧ Describes n chan' ∧
      ∀ k, num' k = num k + nodes_of [n] k := by
  unfold axidma_of_parse_channel at h
  split_ifs at h
  cases hn : channel_child children channel with
  | none => rw [hn] at h; cases h
  | some n =>
    rw [hn] at h
    dsimp only at h
    split at h
    · rename_i id hid
      obtain ⟨hchan, hkind, hnum⟩ := parse_compatible_ok h
      exact ⟨n, rfl, ⟨⟨id, hid, hchan⟩, hkind⟩, hnum⟩
    · cases h

theorem parse_dma_node_ok {names : List String} {i : ℕ} {dma : Except Int DmaSpec}
    {chan chan' : AxidmaChan} {num num' : Counts}
    (h : parse_dma_node names i dma chan num = .ok (chan', num')) :
    ∃ n, channel_nodes [dma] = [n] ∧ Describes n chan' ∧
      ∀ k, num' k = num k + nodes_of [n] k := by
  unfold parse_dma_node at h
  split at h
  · cases h
  · cases h
  · rename_i channel args children
    split_ifs at h
    obtain ⟨⟨c, m⟩, hparse, h⟩ := bind_ok.mp h
    obtain ⟨c', hname, h⟩ := bind_ok.mp h
    obtain ⟨n, hchild, hdesc, hnum⟩ := parse_channel_ok hparse
    cases h
    unfold axidma_of_parse_dma_name at hname
    split at hname
    · cases hname
      exact ⟨n, by simp [channel_nodes, hchild], ⟨hdesc.id, hdesc.kind⟩, hnum⟩
    · cases hname

theorem channel_nodes_cons (dma : Except Int DmaSpec) (dmas : List (Except Int DmaSpec)) :
    channel_nodes (dma :: dmas) = channel_nodes [dma] ++ channel_nodes dmas := by
  unfold channel_nodes
  rw [← List.filterMap_append, List.singleton_append]

/-- Each channel is described by its node, and the nodes of each kind are counted. -/
theorem parse_dma_nodes_ok {names : List String} {uninit : ℕ → AxidmaChan} {i : ℕ}
    {dmas : List (Except Int DmaSpec)} {chans : List AxidmaChan} {num num' : Counts}
    (h : parse_dma_nodes names uninit i dmas num = .ok (chans, num')) :
    List.Forall₂ Describes (channel_nodes dmas) chans ∧
      ∀ k, num' k = num k + nodes_of (channel_nodes dmas) k := by
  induction dmas generalizing i chans num with
  | nil =>
    cases h
    exact ⟨.nil, fun _ => rfl⟩
  | cons dma dmas ih =>
    obtain ⟨⟨chan, num₁⟩, hnode, h⟩ := bind_ok.mp h
    obtain ⟨⟨rest, num₂⟩, hrest, h⟩ := bind_ok.mp h
    cases h
    obtain ⟨n, hn, hdesc, hnum⟩ := parse_dma_node_ok hnode
    obtain ⟨hall, hnum'⟩ := ih hrest
    rw [channel_nodes_cons, hn]
    refine ⟨.cons hdesc hall, fun k => ?_⟩
    rw [nodes_of_append, hnum', hnum, Nat.add_assoc]

theorem check_unique_ids_ok {chans : List AxidmaChan} :
    axidma_check_unique_ids chans = .ok () ↔ (chans.map AxidmaChan.channel_id).Nodup := by
  induction chans with
  | nil => simp [axidma_check_unique_ids]
  | cons c cs ih =>
    unfold axidma_check_unique_ids
    rw [List.map_cons, List.nodup_cons, ← ih]
    split_ifs with hany
    · simp only [List.any_eq_true, beq_iff_eq] at hany
      obtain ⟨c', hc', heq⟩ := hany
      have hmem : c.channel_id ∈ cs.map AxidmaChan.channel_id :=
        List.mem_map.mpr ⟨c', hc', heq.symm⟩
      simp [hmem]
    · simp only [List.any_eq_true, beq_iff_eq, not_exists, not_and] at hany
      refine (and_iff_right ?_).symm
      rintro hmem
      obtain ⟨c', hc', heq⟩ := List.mem_map.mp hmem
      exact hany c' hc' heq.symm

/-- What is known of a device that is set up. -/
structure Found (node : DriverNode) (dev : AxidmaDevice) : Prop where
  describes : List.Forall₂ Describes node.nodes dev.channels
  counts : ∀ k, dev.num_chans_of k = nodes_of node.nodes k
  unique : (dev.channels.map AxidmaChan.channel_id).Nodup
  some_channel : dev.channels ≠ []

theorem num_channels_ok {node : DriverNode} {names : List String}
    {dmas : List (Except Int DmaSpec)} (h : axidma_of_num_channels node = .ok (names, dmas)) :
    node.dmas = some (.ok dmas) ∧ dmas ≠ [] := by
  unfold axidma_of_num_channels at h
  split at h
  · cases h
  · cases h
  · cases h
  · rename_i names' dmas' _ hdmas
    split_ifs at h
    cases dmas' with
    | error _ => cases h
    | ok ds =>
      dsimp only at h
      split_ifs at h with hlen
      cases h
      exact ⟨hdmas, fun hnil => hlen (by rw [hnil]; rfl)⟩

theorem parse_dma_ok {names : List String} {dmas : List (Except Int DmaSpec)}
    {uninit : ℕ → AxidmaChan} {dev : AxidmaDevice}
    (h : axidma_of_parse_dma_nodes names dmas uninit = .ok dev) :
    List.Forall₂ Describes (channel_nodes dmas) dev.channels ∧
      (∀ k, dev.num_chans_of k = nodes_of (channel_nodes dmas) k) ∧
      (dev.channels.map AxidmaChan.channel_id).Nodup ∧ (dmas ≠ [] → dev.channels ≠ []) := by
  obtain ⟨⟨chans, num⟩, hnodes, h⟩ := bind_ok.mp h
  obtain ⟨⟨⟩, hunique, h⟩ := bind_ok.mp h
  cases h
  obtain ⟨hdesc, hcount⟩ := parse_dma_nodes_ok hnodes
  refine ⟨hdesc, fun k => ?_, check_unique_ids_ok.mp hunique, fun hne => ?_⟩
  · rw [← Nat.zero_add (nodes_of _ k)]
    exact hcount k
  · cases dmas with
    | nil => exact absurd rfl hne
    | cons dma dmas =>
      obtain ⟨_, -, hnodes⟩ := bind_ok.mp hnodes
      obtain ⟨_, -, hnodes⟩ := bind_ok.mp hnodes
      cases hnodes
      exact List.cons_ne_nil _ _

theorem dma_init_ok {a : InitAnswers} {node : DriverNode} {dev : AxidmaDevice}
    (h : axidma_dma_init a node = .ok dev) : Found node dev := by
  unfold axidma_dma_init at h
  split at h
  · cases h
  · obtain ⟨⟨names, dmas⟩, hnum, h⟩ := bind_ok.mp h
    dsimp only at h
    split_ifs at h
    obtain ⟨dev', hparse, h⟩ := bind_ok.mp h
    split_ifs at h
    cases h
    obtain ⟨hdmas, hne⟩ := num_channels_ok hnum
    obtain ⟨hdesc, hcount, hunique, hsome⟩ := parse_dma_ok hparse
    have hnodes : node.nodes = channel_nodes dmas := by simp [DriverNode.nodes, hdmas]
    exact ⟨hnodes ▸ hdesc, hnodes ▸ hcount, hunique, hsome hne⟩

/-! ## What the library places -/

/-- How many of the channels are of a kind. -/
def chans_of (chans : List AxidmaChan) (k : Kind) : ℕ := chans.countP fun c => c.kind == some k

/-- The ids of the channels of a kind, in their order. -/
def ids_of (chans : List AxidmaChan) (k : Kind) : List Int :=
  (chans.filter fun c => c.kind == some k).map AxidmaChan.channel_id

theorem length_ids_of (chans : List AxidmaChan) (k : Kind) :
    (ids_of chans k).length = chans_of chans k := by
  unfold ids_of chans_of
  rw [List.length_map, List.countP_eq_length_filter]

theorem ids_of_append (cs ds : List AxidmaChan) (k : Kind) :
    ids_of (cs ++ ds) k = ids_of cs k ++ ids_of ds k := by
  simp [ids_of]

/-- What the library keeps of a channel. -/
def dma_channel (c : AxidmaChan) : Option DmaChannel :=
  c.kind.map fun k => ⟨k.2, k.1, c.channel_id⟩

/-- The device with these channels behind those that it has. -/
def AxidmaDev.placed (dev : AxidmaDev) (chans : List AxidmaChan) : AxidmaDev where
  chans k := { dev.chans k with data := (dev.chans k).data ++ ids_of chans k }
  channels := dev.channels ++ chans.filterMap dma_channel

theorem placed_nil (dev : AxidmaDev) : dev.placed [] = dev := by
  simp [AxidmaDev.placed, ids_of]

theorem placed_append (dev : AxidmaDev) (cs ds : List AxidmaChan) :
    (dev.placed cs).placed ds = dev.placed (cs ++ ds) := by
  simp [AxidmaDev.placed, ids_of_append]

theorem kind_eq_some {c : AxidmaChan} {k : Kind} :
    c.kind = some k ↔ c.type = some k.1 ∧ c.dir = some k.2 := by
  unfold AxidmaChan.kind
  cases c.type <;> cases c.dir <;> simp [Prod.ext_iff]

theorem placed_singleton (dev : AxidmaDev) {c : AxidmaChan} {k : Kind} (hk : c.kind = some k) :
    dev.placed [c] =
      { chans := Function.update dev.chans k
          { dev.chans k with data := (dev.chans k).data ++ [c.channel_id] }
        channels := dev.channels ++ [⟨k.2, k.1, c.channel_id⟩] } := by
  unfold AxidmaDev.placed
  congr 1
  · funext k'
    by_cases hk' : k' = k
    · subst hk'
      simp [ids_of, hk]
    · rw [Function.update_of_ne hk']
      simp [ids_of, hk, Ne.symm hk']
  · simp [dma_channel, hk]

theorem place_channel_ok {dev dev' : AxidmaDev} {c : AxidmaChan} :
    place_channel dev c = .ok dev' ↔
      ∃ k, c.kind = some k ∧ (dev.chans k).data.length < (dev.chans k).places ∧
        dev.placed [c] = dev' := by
  unfold place_channel
  split
  · rename_i type dir htype hdir
    have hkind : c.kind = some (type, dir) := kind_eq_some.mpr ⟨htype, hdir⟩
    rw [placed_singleton dev hkind]
    dsimp only
    split_ifs with hroom
    · simp [hkind, hroom]
    · simp [hkind, hroom]
  · rename_i hno
    refine iff_of_false (by rintro ⟨⟩) ?_
    rintro ⟨k, hkind, -⟩
    exact hno k.1 k.2 (kind_eq_some.mp hkind).1 (kind_eq_some.mp hkind).2

theorem chans_of_cons (c : AxidmaChan) (cs : List AxidmaChan) (k : Kind) :
    chans_of (c :: cs) k = chans_of [c] k + chans_of cs k := by
  unfold chans_of
  rw [← List.countP_append, List.singleton_append]

theorem chans_of_singleton (c : AxidmaChan) (k : Kind) :
    chans_of [c] k = if c.kind = some k then 1 else 0 := by
  simp [chans_of]

/-- The loop gets through exactly when each channel has a kind, and the arrays have the places. -/
theorem place_channels_ok {dev dev' : AxidmaDev} {chans : List AxidmaChan}
    (hfits : ∀ k, (dev.chans k).data.length ≤ (dev.chans k).places) :
    place_channels dev chans = .ok dev' ↔ (∀ c ∈ chans, c.kind.isSome = true) ∧
      (∀ k, (dev.chans k).data.length + chans_of chans k ≤ (dev.chans k).places) ∧
      dev.placed chans = dev' := by
  induction chans generalizing dev with
  | nil =>
    simp only [place_channels, placed_nil, Except.ok.injEq, List.not_mem_nil]
    simp [chans_of, hfits]
  | cons c cs ih =>
    have hcons : dev.placed (c :: cs) = (dev.placed [c]).placed cs := by
      rw [placed_append, List.singleton_append]
    have hlen : ∀ k, ((dev.placed [c]).chans k).data.length =
        (dev.chans k).data.length + chans_of [c] k := by
      intro k
      rw [← length_ids_of, ← List.length_append]
      rfl
    rw [place_channels, bind_ok]
    simp only [place_channel_ok]
    constructor
    · rintro ⟨dev₁, ⟨k, hk, hroom, rfl⟩, hrest⟩
      have hfits' : ∀ k', ((dev.placed [c]).chans k').data.length ≤
          ((dev.placed [c]).chans k').places := by
        intro k'
        rw [hlen, chans_of_singleton, hk]
        change _ ≤ (dev.chans k').places
        have := hfits k'
        split_ifs with heq
        · cases heq
          omega
        · omega
      obtain ⟨hall, hplaces, heq⟩ := (ih hfits').mp hrest
      refine ⟨?_, fun k' => ?_, hcons.trans heq⟩
      · rw [List.forall_mem_cons]
        exact ⟨by rw [hk]; rfl, hall⟩
      · have := hplaces k'
        rw [hlen] at this
        rw [chans_of_cons, ← Nat.add_assoc]
        exact this
    · rintro ⟨hall, hplaces, rfl⟩
      rw [List.forall_mem_cons] at hall
      obtain ⟨k, hk⟩ := Option.isSome_iff_exists.mp hall.1
      have hroom := hplaces k
      rw [chans_of_cons, chans_of_singleton, if_pos hk] at hroom
      have hplaces' : ∀ k', ((dev.placed [c]).chans k').data.length + chans_of cs k' ≤
          ((dev.placed [c]).chans k').places := by
        intro k'
        rw [hlen, Nat.add_assoc, ← chans_of_cons]
        exact hplaces k'
      refine ⟨_, ⟨k, hk, by omega, rfl⟩, ?_⟩
      refine (ih fun k' => Nat.le_of_add_right_le (hplaces' k')).mpr ⟨hall.2, hplaces', hcons.symm⟩

/-! ## From the tree to the arrays -/

def ChannelNode.id (n : ChannelNode) : Option Int := n.device_id.bind fun id => id.map BitVec.toInt

/-- The ids of the nodes of a kind, in the order of `dmas`. -/
def DriverNode.ids (node : DriverNode) (k : Kind) : List Int :=
  (node.nodes.filter fun n => n.kind == some k).filterMap ChannelNode.id

def total (num : Kind → ℕ) : ℕ :=
  num (.DMA, .WRITE) + num (.DMA, .READ) + num (.VDMA, .WRITE) + num (.VDMA, .READ)

theorem total_countP {α : Type} (kind : α → Option Kind) (xs : List α) :
    total (fun k => xs.countP fun x => kind x == some k) =
      xs.countP fun x => (kind x).isSome := by
  induction xs with
  | nil => rfl
  | cons x xs ih =>
    simp only [total, List.countP_cons] at ih ⊢
    rcases kind x with _ | ⟨_ | _, _ | _⟩ <;> simp <;> omega

theorem total_le {num num' : Kind → ℕ} (h : ∀ k, num k ≤ num' k) : total num ≤ total num' := by
  unfold total
  have h1 := h (.DMA, .WRITE)
  have h2 := h (.DMA, .READ)
  have h3 := h (.VDMA, .WRITE)
  have h4 := h (.VDMA, .READ)
  omega

theorem Describes.id_eq {n : ChannelNode} {c : AxidmaChan} (h : Describes n c) :
    n.id = some c.channel_id := by
  obtain ⟨id, hid, hc⟩ := h.id
  simp [ChannelNode.id, hid, hc]

section Found

variable {node : DriverNode} {dev : AxidmaDevice}

theorem kinds_eq {nodes : List ChannelNode} {chans : List AxidmaChan}
    (h : List.Forall₂ Describes nodes chans) (hc : ∀ n ∈ nodes, n.compatible.isSome = true) :
    List.Forall₂ (fun n c => Describes n c ∧ n.kind.isSome = true ∧ c.kind = n.kind)
      nodes chans := by
  induction h with
  | nil => exact .nil
  | cons hd _ ih =>
    rw [List.forall_mem_cons] at hc
    exact .cons ⟨hd, hd.kind hc.1⟩ (ih hc.2)

/-- With a compatible property in each node, the channels of a kind are those of its nodes. -/
theorem ids_of_eq {nodes : List ChannelNode} {chans : List AxidmaChan} (k : Kind)
    (h : List.Forall₂ (fun n c => Describes n c ∧ n.kind.isSome = true ∧ c.kind = n.kind)
      nodes chans) :
    ids_of chans k = (nodes.filter fun n => n.kind == some k).filterMap ChannelNode.id := by
  induction h with
  | nil => rfl
  | @cons n c ns cs hd _ ih =>
    unfold ids_of at ih ⊢
    rw [List.filter_cons, List.filter_cons, hd.2.2]
    split_ifs
    · rw [List.map_cons, List.filterMap_cons, hd.1.id_eq, ih]
    · exact ih

theorem chans_of_eq {nodes : List ChannelNode} {chans : List AxidmaChan} (k : Kind)
    (h : List.Forall₂ (fun n c => Describes n c ∧ n.kind.isSome = true ∧ c.kind = n.kind)
      nodes chans) : chans_of chans k = nodes_of nodes k := by
  induction h with
  | nil => rfl
  | @cons n c ns cs hd _ ih =>
    unfold chans_of nodes_of at ih ⊢
    rw [List.countP_cons, List.countP_cons, hd.2.2, ih]

theorem Found.kinds_of_nodes (h : Found node dev)
    (hkinds : ∀ c ∈ dev.channels, c.kind.isSome = true)
    (hplaces : ∀ k, chans_of dev.channels k ≤ dev.num_chans_of k) :
    ∀ n ∈ node.nodes, n.kind.isSome = true := by
  have hle : total (chans_of dev.channels) ≤ total (nodes_of node.nodes) :=
    total_le fun k => h.counts k ▸ hplaces k
  have hchans : dev.channels.countP (fun c => c.kind.isSome) = dev.channels.length :=
    List.countP_eq_length.mpr hkinds
  have htotal := total_countP AxidmaChan.kind dev.channels
  have htotal' := total_countP ChannelNode.kind node.nodes
  unfold chans_of nodes_of at hle
  rw [htotal, htotal', hchans, ← h.describes.length_eq] at hle
  exact List.countP_eq_length.mp (Nat.le_antisymm List.countP_le_length hle)

theorem exists_related {α β : Type} {R : α → β → Prop} {xs : List α} {ys : List β} {x : α}
    (h : List.Forall₂ R xs ys) (hx : x ∈ xs) : ∃ y ∈ ys, R x y := by
  induction h with
  | nil => cases hx
  | cons hd _ ih =>
    rcases List.mem_cons.mp hx with rfl | hx
    · exact ⟨_, List.mem_cons_self, hd⟩
    · obtain ⟨y, hy, hr⟩ := ih hx
      exact ⟨y, List.mem_cons_of_mem _ hy, hr⟩

end Found

/-- The search finds the channel of an id, as no other channel has it. -/
theorem find_placed {chans : List AxidmaChan} {c : AxidmaChan} {k : Kind}
    (hu : (chans.map AxidmaChan.channel_id).Nodup) (hc : c ∈ chans) (hk : c.kind = some k) :
    (chans.filterMap dma_channel).find? (fun d => d.channel_id == c.channel_id) =
      some ⟨k.2, k.1, c.channel_id⟩ := by
  induction chans with
  | nil => cases hc
  | cons c' cs ih =>
    rw [List.map_cons, List.nodup_cons] at hu
    rw [List.filterMap_cons]
    rcases List.mem_cons.mp hc with rfl | hc
    · simp [dma_channel, hk]
    · have hne : c'.channel_id ≠ c.channel_id := by
        intro heq
        exact hu.1 (List.mem_map.mpr ⟨c, hc, heq.symm⟩)
      cases hk' : c'.kind with
      | none => simpa [dma_channel, hk'] using ih hu.2 hc
      | some k' => simpa [dma_channel, hk', hne] using ih hu.2 hc

/-- The driver answers, and there is memory. -/
structure ProbeAnswers.Granted (b : ProbeAnswers) : Prop where
  num_channels : 0 ≤ b.num_channels
  channels : 0 ≤ b.channels
  malloc : ∀ i, b.malloc i = true

/-- The library before it places the ids. -/
def AxidmaDevice.unplaced (dev : AxidmaDevice) : AxidmaDev :=
  ⟨fun k => ⟨dev.num_chans_of k, []⟩, []⟩

theorem probe_granted {b : ProbeAnswers} {dev : AxidmaDevice} (hb : b.Granted)
    (hne : dev.channels ≠ []) :
    probe_channels b dev = place_channels dev.unplaced dev.channels := by
  have hlen : dev.channels.length ≠ 0 := by simpa using hne
  unfold probe_channels categorize_channels AxidmaDevice.unplaced
  rw [if_neg (by have := hb.num_channels; omega), if_neg hlen, if_neg (by simp [hb.malloc]),
    if_neg (by have := hb.channels; omega), if_pos (by simp [hb.malloc])]

theorem place_channels_error {dev : AxidmaDev} {chans : List AxidmaChan} {e : ProbeFailure}
    (h : place_channels dev chans = .error e) : e = .no_array ∨ e = .overflow := by
  induction chans generalizing dev with
  | nil => cases h
  | cons c cs ih =>
    cases hplace : place_channel dev c with
    | ok dev₁ =>
      rw [place_channels, hplace] at h
      exact ih h
    | error e' =>
      rw [place_channels, hplace] at h
      cases h
      unfold place_channel at hplace
      split at hplace
      · dsimp only at hplace
        split_ifs at hplace
        cases hplace
        exact Or.inr rfl
      · cases hplace
        exact Or.inl rfl

theorem ChannelNode.compatible_of_kind {n : ChannelNode} (h : n.kind.isSome = true) :
    n.compatible.isSome = true := by
  unfold ChannelNode.kind at h
  cases hc : n.compatible with
  | none => rw [hc] at h; cases h
  | some c => rfl

section Found

variable {node : DriverNode} {dev : AxidmaDevice} {lib : AxidmaDev}

theorem Found.placed_iff (h : Found node dev) :
    place_channels dev.unplaced dev.channels = .ok lib ↔
      (∀ n ∈ node.nodes, n.compatible.isSome = true) ∧
        dev.unplaced.placed dev.channels = lib := by
  rw [place_channels_ok fun k => Nat.zero_le _]
  constructor
  · rintro ⟨hkinds, hplaces, rfl⟩
    have hnodes := h.kinds_of_nodes hkinds fun k => Nat.zero_add (chans_of _ k) ▸ hplaces k
    exact ⟨fun n hn => ChannelNode.compatible_of_kind (hnodes n hn), rfl⟩
  · rintro ⟨hcompatible, rfl⟩
    have hboth := kinds_eq h.describes hcompatible
    refine ⟨fun c hc => ?_, fun k => ?_, rfl⟩
    · obtain ⟨n, -, -, hn, heq⟩ := exists_related hboth.flip hc
      rw [heq, hn]
    · have heq := (chans_of_eq k hboth).trans (h.counts k).symm
      change 0 + chans_of dev.channels k ≤ dev.num_chans_of k
      omega

theorem Found.ids_eq (h : Found node dev) (hc : ∀ n ∈ node.nodes, n.compatible.isSome = true)
    (k : Kind) : ids_of dev.channels k = node.ids k :=
  ids_of_eq k (kinds_eq h.describes hc)

theorem Found.find_eq (h : Found node dev) (hc : ∀ n ∈ node.nodes, n.compatible.isSome = true)
    {n : ChannelNode} {k : Kind} {id : Int} (hn : n ∈ node.nodes) (hk : n.kind = some k)
    (hid : n.id = some id) :
    find_channel (dev.unplaced.placed dev.channels) id = some ⟨k.2, k.1, id⟩ := by
  obtain ⟨c, hmem, hdesc, -, hkind⟩ := exists_related (kinds_eq h.describes hc) hn
  rw [hdesc.id_eq, Option.some_inj] at hid
  rw [← hid]
  exact find_placed h.unique hmem (hkind.trans hk)

end Found

/-- The library has the channels of a device as its tree names them exactly when each node has its
`compatible` property. Otherwise it fails its assertion, or writes behind one of its arrays. -/
theorem ids_are_sorted_iff {a : InitAnswers} {b : ProbeAnswers} {node : DriverNode}
    {dev : AxidmaDevice} (h : axidma_dma_init a node = .ok dev) (hb : b.Granted) :
    ((∃ lib, probe_channels b dev = .ok lib) ↔ ∀ n ∈ node.nodes, n.compatible.isSome = true) ∧
      (∀ e, probe_channels b dev = .error e → e = .no_array ∨ e = .overflow) ∧
      ∀ lib, probe_channels b dev = .ok lib →
        (∀ k, (lib.chans k).data = node.ids k) ∧
        ∀ n ∈ node.nodes, ∀ k id, n.kind = some k → n.id = some id →
          find_channel lib id = some ⟨k.2, k.1, id⟩ := by
  have hfound := dma_init_ok h
  rw [probe_granted hb hfound.some_channel]
  refine ⟨?_, fun e he => place_channels_error he, fun lib hlib => ?_⟩
  · simp only [hfound.placed_iff, exists_and_left, exists_eq', and_true]
  · obtain ⟨hc, rfl⟩ := hfound.placed_iff.mp hlib
    refine ⟨fun k => ?_, fun n hn k id hk hid => hfound.find_eq hc hn hk hid⟩
    exact hfound.ids_eq hc k

/-- The second device of the board, as the tree has it. -/
def axidma_chrdev1 : DriverNode where
  dma_names := some (.ok ["axidma1_tx_channel", "axidma1_rx_channel"])
  dmas :=
    let dma : List ChannelNode :=
      [⟨some (some 0), some ["xlnx,axi-dma-mm2s-channel"]⟩,
       ⟨some (some 1), some ["xlnx,axi-dma-s2mm-channel"]⟩]
    some (.ok [.ok ⟨[0], dma⟩, .ok ⟨[1], dma⟩])

/-- The device that the driver makes of it. -/
def chrdev1 : AxidmaDevice where
  channels := [⟨some .WRITE, some .DMA, 0, "axidma1_tx_channel"⟩,
    ⟨some .READ, some .DMA, 1, "axidma1_rx_channel"⟩]
  num_chans_of := Counts.add (Counts.add (fun _ => 0) (.DMA, .WRITE)) (.DMA, .READ)

def all_granted : InitAnswers := ⟨0, true, true, fun _ => ⟨none, none, 0, ""⟩, fun _ => true⟩

def all_answered : ProbeAnswers := ⟨0, 0, fun _ => true⟩

theorem ids_of_chrdev1_are_sorted : ∃ lib, probe_channels all_answered chrdev1 = .ok lib ∧
    lib.dma_tx_chans.data = [0] ∧ lib.dma_rx_chans.data = [1] := by
  have hinit : axidma_dma_init all_granted axidma_chrdev1 = .ok chrdev1 := rfl
  have hanswered : all_answered.Granted := ⟨by decide, by decide, fun _ => rfl⟩
  obtain ⟨hiff, -, hlib⟩ := ids_are_sorted_iff hinit hanswered
  obtain ⟨lib, hok⟩ := hiff.mpr (by decide)
  exact ⟨lib, hok, ((hlib lib hok).1 _).trans rfl, ((hlib lib hok).1 _).trans rfl⟩

end axidma
