import OptionSchema.Failure
import OptionSchema.Proofs.Entries
import OptionSchema.Proofs.Rearrangement
import OptionSchema.Proofs.Value.LargeIntegers
/-!
# Values to JSON and back

What a tree is read as is written as that tree again, unless it holds an integer that no value
holds: that one comes back as a float. What a value without a form of its own is written as is read
as that value again.
-/
namespace OptionSchema

namespace Json

def parts : Json → List Json
  | .array items => items
  | .object members => members.map (·.2)
  | _ => []

theorem sizeOf_part {tree part : Json} (h : part ∈ tree.parts) : sizeOf part < sizeOf tree := by
  cases tree with
  | array items =>
    have := List.sizeOf_lt_of_mem (show part ∈ items from h)
    simp only [Json.array.sizeOf_spec]; omega
  | object members =>
    obtain ⟨⟨name, member⟩, hmember, rfl⟩ := List.mem_map.mp h
    have := List.sizeOf_lt_of_mem hmember
    simp only [Json.object.sizeOf_spec, Prod.mk.sizeOf_spec] at *; omega
  | _ => cases h

theorem parts_induction {motive : Json → Prop}
    (step : ∀ tree, (∀ part ∈ tree.parts, motive part) → motive tree) (tree : Json) :
    motive tree :=
  step tree fun part _ => parts_induction step part
termination_by sizeOf tree
decreasing_by exact sizeOf_part ‹_›

/-- What a parser returns: integers are in the signed or the unsigned range of 64 bits, floats are
finite, and an object holds every name once. -/
def HasSoundNode : Json → Prop
  | .integer n => Int64.minValue.toInt ≤ n ∧ n < 2 ^ 64
  | .float bits => Value.isFinite bits = true
  | .object members => (Entries.names members).Nodup
  | _ => True

inductive Sound : Json → Prop where
  | intro {tree : Json} (node : tree.HasSoundNode) (parts : ∀ part ∈ tree.parts, Sound part) :
      Sound tree

theorem Sound.part {tree part : Json} (h : tree.Sound) (hpart : part ∈ tree.parts) :
    part.Sound := by
  cases h with
  | intro _ parts => exact parts part hpart

theorem Sound.node {tree : Json} (h : tree.Sound) : tree.HasSoundNode := by
  cases h with
  | intro node _ => exact node

def step? : Json → Segment → Option Json
  | .object members, .key name => members.lookup name
  | .array items, .index position => items[position]?
  | _, _ => none

def follow? (tree : Json) : Path → Option Json
  | [] => some tree
  | segment :: rest => (tree.step? segment).bind fun part => part.follow? rest

theorem part_of_step? {tree part : Json} {segment : Segment} (h : tree.step? segment = some part) :
    part ∈ tree.parts := by
  fun_cases step? tree segment with
  | case1 members name => exact List.mem_map.mpr ⟨_, Entries.mem_of_lookup h, rfl⟩
  | case2 items position => exact List.mem_of_getElem? h
  | case3 => rw [step?] at h <;> first | cases h | assumption

theorem Sound.step?_of_part {tree part : Json} (sound : tree.Sound) (h : part ∈ tree.parts) :
    ∃ segment, tree.step? segment = some part := by
  cases tree with
  | array items =>
    obtain ⟨position, hposition⟩ := List.mem_iff_getElem?.mp h
    exact ⟨.index position, hposition⟩
  | object members =>
    obtain ⟨⟨name, member⟩, hmember, rfl⟩ := List.mem_map.mp h
    exact ⟨.key name, Entries.lookup_of_mem sound.node hmember⟩
  | _ => cases h

theorem Sound.follow {tree part : Json} {path : Path} (sound : tree.Sound)
    (h : tree.follow? path = some part) : part.Sound := by
  induction path generalizing tree with
  | nil => exact Option.some.inj h ▸ sound
  | cons segment rest ih =>
    obtain ⟨next, hstep, hrest⟩ := Option.bind_eq_some_iff.mp h
    exact ih (sound.part (part_of_step? hstep)) hrest

end Json

namespace Value

theorem ofJsonItems_eq (items : List Json) : ofJsonItems items = items.map ofJson := by
  induction items with
  | nil => rfl
  | cons item items ih => rw [ofJsonItems, ih, List.map_cons]

theorem ofJsonMembers_eq (members : List (String × Json)) :
    ofJsonMembers members = members.map fun member => (.string member.1, ofJson member.2) := by
  induction members with
  | nil => rfl
  | cons member members ih => rw [ofJsonMembers, ih, List.map_cons]

theorem jsonItems_eq (items : List Value) : jsonItems items = items.map toJson := by
  induction items with
  | nil => rfl
  | cons item items ih => rw [jsonItems, ih, List.map_cons]

theorem jsonPairs_eq (pairs : List (Value × Value)) :
    jsonPairs pairs = pairs.map fun pair => (pair.1.memberName, pair.2.toJson) := by
  induction pairs with
  | nil => rfl
  | cons pair pairs ih => rw [jsonPairs, ih, List.map_cons]

/-- What a tree becomes that is read as a value and written again. -/
def reread (tree : Json) : Json := (ofJson tree).toJson

theorem reread_array (items : List Json) : reread (.array items) = .array (items.map reread) := by
  rw [reread, ofJson, toJson, jsonItems_eq, ofJsonItems_eq, List.map_map]
  rfl

theorem reread_object {members : List (String × Json)} (once : (Entries.names members).Nodup) :
    reread (.object members) = .object (members.map fun member => (member.1, reread member.2)) := by
  rw [reread, ofJson, toJson, jsonPairs_eq, ofJsonMembers_eq, List.map_map]
  refine congrArg Json.object (Entries.ofList_of_nodup ?_)
  rw [Entries.names, List.map_map]
  exact once

theorem reread_integer {n : Int} (low : Int64.minValue.toInt ≤ n)
    (high : n ≤ Int64.maxValue.toInt) : reread (.integer n) = .integer n := by
  rw [reread, ofJson, ofInt, if_pos ⟨low, high⟩, toJson, Int64.toInt_ofInt_of_le low]
  exact Int.lt_of_le_of_lt high (by decide)

theorem reread_large {n : Int} (low : Int64.maxValue.toInt < n) (high : n < 2 ^ 64) :
    reread (.integer n) = .float (Float.ofInt n).toBits := by
  rw [reread, ofJson, ofInt, if_neg fun h => absurd h.2 (Int.not_le.mpr low), toJson,
    if_pos (isFinite_ofInt low high)]

/-- Reading and writing a tree leaves every part at its place. -/
theorem step?_reread {tree : Json} (sound : tree.Sound) (segment : Segment) :
    (reread tree).step? segment = (tree.step? segment).map reread := by
  cases tree with
  | array items =>
    rw [reread_array]
    cases segment with
    | key name => rfl
    | index position => exact List.getElem?_map
  | object members =>
    rw [reread_object sound.node]
    cases segment with
    | key name => exact Entries.lookup_map reread members name
    | index position => rfl
  | integer n =>
    rw [reread, ofJson, ofInt]
    split
    · rfl
    · rw [toJson]; split <;> rfl
  | float bits => rw [reread, ofJson, toJson]; split <;> rfl
  | _ => rfl

theorem follow?_reread {tree : Json} (sound : tree.Sound) (path : Path) :
    (reread tree).follow? path = (tree.follow? path).map reread := by
  induction path generalizing tree with
  | nil => rfl
  | cons segment rest ih =>
    rw [Json.follow?, Json.follow?, step?_reread sound]
    cases hstep : tree.step? segment with
    | none => rfl
    | some part => exact ih (sound.part (Json.part_of_step? hstep))

/-- Only integers that no value holds change. -/
theorem reread_eq {tree : Json} (sound : tree.Sound)
    (fits : ∀ path n, tree.follow? path = some (.integer n) → n ≤ Int64.maxValue.toInt) :
    reread tree = tree := by
  induction tree using Json.parts_induction with
  | step tree ih =>
    have parts : ∀ part ∈ tree.parts, reread part = part := by
      intro part hpart
      obtain ⟨segment, hsegment⟩ := sound.step?_of_part hpart
      refine ih part hpart (sound.part hpart) fun path n h => fits (segment :: path) n ?_
      rw [Json.follow?, hsegment]
      exact h
    cases tree with
    | array items =>
      rw [reread_array]
      exact congrArg Json.array ((List.map_congr_left parts).trans (List.map_id items))
    | object members =>
      rw [reread_object sound.node]
      refine congrArg Json.object ((List.map_congr_left fun member hmember => ?_).trans
        (List.map_id members))
      rw [parts member.2 (List.mem_map.mpr ⟨member, hmember, rfl⟩)]
      rfl
    | integer n => exact reread_integer sound.node.1 (fits [] n rfl)
    | float bits => exact if_pos sound.node
    | _ => rfl

inductive JsonLike : Value → Prop where
  | null : JsonLike .null
  | bool (b : Bool) : JsonLike (.bool b)
  | integer (n : Int64) : JsonLike (.integer n)
  | float {bits : UInt64} (finite : isFinite bits = true) : JsonLike (.float bits)
  | string (s : String) : JsonLike (.string s)
  | list {items : List Value} (each : ∀ item ∈ items, JsonLike item) : JsonLike (.list items)
  | map {entries : List (String × Value)} (once : (Entries.names entries).Nodup)
      (each : ∀ entry ∈ entries, JsonLike entry.2) :
      JsonLike (.map (entries.map fun entry => (.string entry.1, entry.2)))

theorem JsonLike.ofJson_toJson {value : Value} (h : value.JsonLike) :
    ofJson value.toJson = value := by
  induction h with
  | null | bool | string => rfl
  | integer n =>
    rw [toJson, ofJson, ofInt, if_pos ⟨n.minValue_le_toInt, n.toInt_le⟩, Int64.ofInt_toInt]
  | float finite => rw [toJson, if_pos finite, ofJson]
  | @list items _ ih =>
    rw [toJson, ofJson, jsonItems_eq, ofJsonItems_eq, List.map_map]
    exact congrArg Value.list ((List.map_congr_left ih).trans (List.map_id items))
  | @map entries once _ ih =>
    have members : jsonPairs (entries.map fun entry => (.string entry.1, entry.2)) =
        entries.map fun entry => (entry.1, entry.2.toJson) := by
      rw [jsonPairs_eq, List.map_map]
      rfl
    have once' : (Entries.names (entries.map fun entry => (entry.1, entry.2.toJson))).Nodup := by
      rw [Entries.names, List.map_map]
      exact once
    rw [toJson, members, Entries.ofList_of_nodup once', ofJson, ofJsonMembers_eq, List.map_map]
    refine congrArg Value.map (List.map_congr_left fun entry hentry => ?_)
    exact congrArg (Prod.mk _) (ih entry hentry)

/-- Read and written again, a tree is itself exactly when every integer in it is in the signed
range; an integer beyond becomes a float in its place. Written and read again, a value that JSON has
a form for is itself. -/
theorem json_round_trips {tree : Json} {value : Value} (sound : tree.Sound)
    (like : value.JsonLike) :
    ((ofJson tree).toJson = tree ↔
      ∀ path n, tree.follow? path = some (.integer n) → n ≤ Int64.maxValue.toInt) ∧
    (∀ path n, tree.follow? path = some (.integer n) → Int64.maxValue.toInt < n →
      ∃ bits, isFinite bits = true ∧ (ofJson tree).toJson.follow? path = some (.float bits)) ∧
    ofJson value.toJson = value := by
  have float : ∀ path n, tree.follow? path = some (.integer n) → Int64.maxValue.toInt < n →
      isFinite (Float.ofInt n).toBits = true ∧
        (reread tree).follow? path = some (.float (Float.ofInt n).toBits) := by
    intro path n hpath large
    have integer : (Json.integer n).Sound := sound.follow hpath
    refine ⟨isFinite_ofInt large integer.node.2, ?_⟩
    rw [follow?_reread sound, hpath, Option.map_some, reread_large large integer.node.2]
  refine ⟨⟨fun same path n hpath => ?_, reread_eq sound⟩, ?_, like.ofJson_toJson⟩
  · by_contra large
    have changed := (float path n hpath (Int.not_le.mp large)).2
    rw [show reread tree = tree from same, hpath] at changed
    cases changed
  · exact fun path n hpath large => ⟨_, float path n hpath large⟩

section Quotas

def quotas : Json :=
  .object [("used", .array [.integer (-1), .integer (2 ^ 63)]), ("rate", .float 0x8000000000000000)]

theorem quotas_sound : quotas.Sound := by
  have leaf : ∀ {tree : Json}, tree.HasSoundNode → tree.parts = [] → tree.Sound :=
    fun node none => .intro node fun part hpart => absurd (none ▸ hpart) List.not_mem_nil
  refine .intro (show ["used", "rate"].Nodup by decide) ?_
  simp only [quotas, Json.parts, List.map_cons, List.map_nil, List.forall_mem_cons]
  refine ⟨.intro trivial ?_, leaf rfl rfl, nofun⟩
  simp only [Json.parts, List.forall_mem_cons]
  exact ⟨leaf ⟨by decide, by decide⟩ rfl, leaf ⟨by decide, by decide⟩ rfl, nofun⟩

def quotasLeft : Value :=
  .map [(.string "used", .list [.integer (-1)]), (.string "rate", .float 0x8000000000000000)]

/-- The large quota comes back as a float, a negative zero as itself. -/
theorem quotas_reread :
    (ofJson quotas).toJson ≠ quotas ∧
    (∃ bits, isFinite bits = true ∧
      (ofJson quotas).toJson.follow? [.key "used", .index 1] = some (.float bits)) ∧
    ofJson quotasLeft.toJson = quotasLeft := by
  have like : quotasLeft.JsonLike := by
    refine @JsonLike.map [("used", .list [.integer (-1)]), ("rate", .float 0x8000000000000000)]
      (by decide) ?_
    simp only [List.forall_mem_cons]
    exact ⟨.list (by simpa using .integer (-1)), .float rfl, nofun⟩
  obtain ⟨same, float, back⟩ := json_round_trips quotas_sound like
  have large : quotas.follow? [.key "used", .index 1] = some (.integer (2 ^ 63)) := rfl
  refine ⟨fun h => ?_, float _ _ large (by decide), back⟩
  exact absurd (same.mp h _ _ large) (by decide)

end Quotas

end Value

end OptionSchema
