import Mcfunction.Proofs.Way

/-! Signatures and their rewinding. On every way through a tree the names of the entries are those of the way, each
slot knows the names up to it, and the offsets are the places of the arguments, in order. Main statement: this holds
of every prototype of a tree, the offsets stay exact when the first entries are left out, and leaving out entries
twice is leaving out all of them at once. -/

namespace Mcfunction

open List Entry Prototype

namespace Entry

def name : Entry → String
  | .literal name => name
  | .argument slot => slot.name

def places (signature : List Entry) : List Nat :=
  (List.range signature.length).filter fun i => (signature[i]?.bind slot?).isSome

variable {signature : List Entry} {e : Entry} {i n : Nat}

theorem slot?_eq_some_iff {slot : Slot} : e.slot? = some slot ↔ e = .argument slot := by
  cases e <;> simp [slot?]

theorem isSome_slot?_getElem? :
    (signature[i]?.bind slot?).isSome = true ↔ ∃ slot, signature[i]? = some (.argument slot) := by
  simp only [Option.isSome_iff_exists, Option.bind_eq_some_iff, slot?_eq_some_iff, exists_eq_right]

theorem mem_places : i ∈ places signature ↔ ∃ slot, signature[i]? = some (.argument slot) := by
  rw [places, mem_filter, isSome_slot?_getElem?, mem_range]
  constructor
  · exact And.right
  · rintro ⟨slot, hslot⟩
    exact ⟨(List.getElem?_eq_some_iff.1 hslot).1, slot, hslot⟩

theorem places_append (front back : List Entry) :
    places (front ++ back) = places front ++ (places back).map (front.length + ·) := by
  rw [places, length_append, range_add, filter_append, filter_map]
  congr 1
  · refine filter_congr fun i hi => ?_
    rw [getElem?_append_left (mem_range.1 hi)]
  · refine congrArg _ (filter_congr fun i _ => ?_)
    rw [Function.comp_apply, getElem?_append_right (Nat.le_add_right _ _), Nat.add_sub_cancel_left]

theorem places_concat (signature : List Entry) (e : Entry) :
    places (signature ++ [e]) = places signature ++ if e.slot?.isSome then [signature.length] else [] := by
  rw [places_append]
  cases e <;> rfl

theorem length_places (signature : List Entry) : (places signature).length = (signature.filterMap slot?).length := by
  induction signature using reverseRecOn with
  | nil => rfl
  | append_singleton signature e ih =>
    rw [places_concat, length_append, filterMap_append, length_append, ih]
    cases e <;> rfl

theorem places_drop (signature : List Entry) (h : n ≤ signature.length) :
    ((places signature).filter (n ≤ ·)).map (· - n) = places (signature.drop n) := by
  have hlen : (signature.take n).length = n := length_take_of_le h
  have hfront : (places (signature.take n)).filter (n ≤ ·) = [] := by
    refine filter_eq_nil_iff.2 fun i hi => ?_
    have hlt : i < (signature.take n).length := mem_range.1 (mem_filter.1 hi).1
    simp
    omega
  have hback : ((places (signature.drop n)).map (n + ·)).filter (n ≤ ·) = (places (signature.drop n)).map (n + ·) := by
    refine filter_eq_self.2 fun i hi => ?_
    obtain ⟨j, -, rfl⟩ := mem_map.1 hi
    simp
  conv_lhs => rw [← take_append_drop n signature, places_append, hlen]
  rw [filter_append, hfront, hback]
  simp [Function.comp_def]

end Entry

variable {prototypes : Entries Prototype} {e : String × Prototype} {t node : CommandTree} {p : Prototype} {w way : Way}

namespace CommandTree

theorem aligned_places (signature : List Entry) : Aligned signature (places signature) := by
  intro n
  by_cases hn : n ≤ signature.length
  · rw [← length_places, ← places_drop signature hn, length_map]
  · have hfront : (places signature).filter (n ≤ ·) = [] := by
      refine filter_eq_nil_iff.2 fun i hi => ?_
      have hlt : i < signature.length := mem_range.1 (mem_filter.1 hi).1
      simp
      omega
    rw [hfront, drop_eq_nil_of_le (by omega)]
    rfl

namespace Way

/-- The entries of the way have its names, their slots lie on it, and its offsets are the places of its arguments. -/
structure Sound (w : Way) : Prop where
  names : w.signature.map name = w.scope
  scopes : ∀ i slot, w.signature[i]? = some (.argument slot) → slot.scope = w.scope.take (i + 1)
  offsets : w.offsets = places w.signature

theorem Sound.start : Sound {} where
  names := rfl
  scopes := by
    intro i slot h
    cases (getElem?_nil ▸ h : none = some (argument slot))
  offsets := rfl

theorem Sound.length_signature (h : w.Sound) : w.signature.length = w.scope.length := by
  rw [← h.names, length_map]

theorem Sound.aligned (h : w.Sound) : Aligned w.signature w.offsets := by
  rw [h.offsets]
  exact aligned_places w.signature

theorem Sound.concat (h : w.Sound) {name : String} {e : Entry} {offsets : List Nat} (hname : e.name = name)
    (hscope : ∀ slot, e = .argument slot → slot.scope = w.scope ++ [name])
    (hoffsets : offsets = w.offsets ++ if e.slot?.isSome then [w.signature.length] else []) :
    Sound ⟨w.scope ++ [name], w.signature ++ [e], offsets⟩ where
  names := by rw [map_append, h.names, map_singleton, hname]
  scopes := by
    intro i slot hslot
    have hlen := h.length_signature
    rw [getElem?_append] at hslot
    split at hslot
    · rw [h.scopes i slot hslot, take_append_of_le_length (by omega)]
    · obtain ⟨hi, he⟩ := List.getElem?_eq_some_iff.1 hslot
      rw [hscope slot (by simpa using he), take_of_length_le (by simp; omega)]
  offsets := by rw [places_concat, ← h.offsets, hoffsets]

theorem Sound.step (h : w.Sound) (name : String) (child : CommandTree) : (w.step name child).Sound := by
  rw [Way.step]
  split
  · exact h.concat rfl (fun slot hslot => Entry.noConfusion hslot) (append_nil _).symm
  · exact h.concat (by simp [Entry.name, Slot.name]) (fun slot hslot => by cases hslot; rfl) rfl

theorem Sound.subcommand (h : w.Sound) : w.subcommand.Sound :=
  h.concat (by simp [name, Slot.name]) (fun slot hslot => by cases hslot; rfl) rfl

end Way

theorem Leads.sound (h : Leads t way node) : way.Sound := by
  induction h with
  | start => exact .start
  | step _ _ ih => exact ih.step _ _

/-- The prototypes of a tree stand under their identifiers, and are emitted on the ways that the walk takes. -/
theorem emitted_of_mem_prototypes {R : Way → CommandTree → Prop}
    (htop : ∀ {name child}, (name, child) ∈ t.children → R (Way.step {} name child) child)
    (hstep : ∀ {way node name child}, R way node → (name, child) ∈ t.following node → R (way.step name child) child)
    (h : t.prototypes = .ok prototypes)
    (he : e ∈ prototypes) : e.1 = e.2.identifier ∧ ∃ way node, R way node ∧ t.Emits way node e.2 := by
  rw [CommandTree.prototypes] at h
  split at h
  · cases h
  · rename_i ps hps
    cases h
    rcases mem_of_mem_foldl_insert he with ⟨hmem, hkey⟩ | hmem
    · exact ⟨hkey, emitted_of_mem hstep [] {} t.children (fun _ _ hchild => htop hchild) ps hps e.2 hmem⟩
    · cases hmem

theorem exists_way_of_mem (h : t.prototypes = .ok prototypes)
    (he : e ∈ prototypes) : e.1 = e.2.identifier ∧ ∃ way : Way, way.Sound ∧ e.2 = way.prototype := by
  obtain ⟨hkey, way, node, hway, hemits⟩ := emitted_of_mem_prototypes (R := fun way _ => way.Sound)
    (fun _ => Way.Sound.start.step _ _) (fun hway _ => hway.step _ _) h he
  rcases hemits with ⟨-, hp⟩ | ⟨-, hp⟩
  · exact ⟨hkey, way, hway, hp⟩
  · exact ⟨hkey, way.subcommand, hway.subcommand, hp⟩

end CommandTree

namespace Prototype

/-- The offsets list the places of the arguments in the signature, in order. -/
structure Indexed (p : Prototype) : Prop where
  increasing : p.offsets.Pairwise (· < ·)
  mem_iff : ∀ i, i ∈ p.offsets ↔ ∃ slot, p.signature[i]? = some (.argument slot)

theorem indexed_of_offsets (h : p.offsets = places p.signature) : p.Indexed where
  increasing := h ▸ pairwise_lt_range.filter _
  mem_iff := fun _ => h ▸ mem_places

theorem offsets_relativeTo (h : p.offsets = places p.signature) (n : Nat) :
    (p.relativeTo n).offsets = places (p.relativeTo n).signature := by
  rw [relativeTo]
  rw [h, places_drop _ (Nat.min_le_right _ _)]

theorem map_sub_filter (offsets : List Nat) (a b : Nat) :
    (((offsets.filter (a ≤ ·)).map (· - a)).filter (b ≤ ·)).map (· - b) =
      (offsets.filter (a + b ≤ ·)).map (· - (a + b)) := by
  rw [filter_map, filter_filter, map_map]
  congr 1
  · funext i
    exact Nat.sub_sub i a b
  · congr 1
    funext i
    rw [Function.comp_apply, ← Bool.decide_and, decide_eq_decide]
    omega

theorem relativeTo_relativeTo (p : Prototype) (a b : Nat) : (p.relativeTo a).relativeTo b = p.relativeTo (a + b) := by
  have hmin : min a p.signature.length + min b (p.signature.length - min a p.signature.length) =
      min (a + b) p.signature.length := by omega
  simp only [relativeTo, length_drop, drop_drop, map_sub_filter, hmin]

end Prototype

namespace CommandTree

/-- Prototypes and their rewinding. In every prototype of a tree the offsets list exactly the places of the arguments,
in order, the identifier joins the names of the entries, and the scope of a slot holds the names of the entries up to
it. Without its first entries the prototype still lists the places of its arguments, and leaving out entries twice is
leaving out all of them at once. -/
theorem prototypes_indexed {t : CommandTree} {prototypes : Entries Prototype} (h : t.prototypes = .ok prototypes)
    {key : String} {p : Prototype} (hp : (key, p) ∈ prototypes) :
    p.Indexed ∧ key = p.identifier ∧ p.identifier = ":".intercalate (p.signature.map Entry.name) ∧
      (∀ i slot, p.signature[i]? = some (.argument slot) →
        slot.scope = (p.signature.take (i + 1)).map Entry.name) ∧
      ∀ a, (p.relativeTo a).Indexed ∧ ∀ b, (p.relativeTo a).relativeTo b = p.relativeTo (a + b) := by
  obtain ⟨hkey, way, hway, rfl⟩ := exists_way_of_mem h hp
  refine ⟨indexed_of_offsets hway.offsets, hkey, ?_, ?_, fun a => ⟨?_, fun b => ?_⟩⟩
  · rw [Way.prototype, hway.names]
  · intro i slot hslot
    rw [map_take, Way.prototype, hway.names]
    exact hway.scopes i slot hslot
  · exact indexed_of_offsets (offsets_relativeTo hway.offsets a)
  · exact relativeTo_relativeTo _ a b

/-- A command behind an alias that ends with a whole command; without three entries it has only that one left. -/
theorem prototypes_indexed_of_alias :
    let targets : CommandTree := { role := .argument, reader? := some "minecraft:entity" }
    let t : CommandTree := { role := .root, children := [
      ("execute", { role := .literal, subcommand := true, children := [
        ("as", { role := .literal, children := [("targets", { targets with redirect? := some ["execute"] })] }),
        ("over", { role := .literal, redirect? := some ["execute", "as"] })] })] }
    let scope := ["execute", "over", "targets"]
    let p : Prototype := ⟨"execute:over:targets:subcommand",
      [.literal "execute", .literal "over", .argument ⟨scope, some "minecraft:entity"⟩,
        .argument ⟨scope ++ [Slot.subcommandName], none⟩], [2, 3]⟩
    (∃ prototypes, t.prototypes = .ok prototypes ∧ ("execute:over:targets:subcommand", p) ∈ prototypes ∧
      p.Indexed ∧ "execute:over:targets:subcommand" = p.identifier ∧
      p.identifier = ":".intercalate (p.signature.map Entry.name) ∧
      (∀ i slot, p.signature[i]? = some (.argument slot) →
        slot.scope = (p.signature.take (i + 1)).map Entry.name) ∧
      ∀ a, (p.relativeTo a).Indexed ∧ ∀ b, (p.relativeTo a).relativeTo b = p.relativeTo (a + b)) ∧
      (p.relativeTo 3).offsets = [0] := by
  intro targets t scope p
  obtain ⟨prototypes, hprototypes, hp⟩ : ∃ prototypes, t.prototypes = .ok prototypes ∧
      decide ((p.identifier, p) ∈ prototypes) = true := exists_ok_of_any (by cbv)
  have hp := of_decide_eq_true hp
  exact ⟨⟨prototypes, hprototypes, hp, prototypes_indexed hprototypes hp⟩, rfl⟩

end CommandTree

end Mcfunction
