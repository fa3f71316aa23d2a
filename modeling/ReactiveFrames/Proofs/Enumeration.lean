import ReactiveFrames.Enumeration
import Mathlib.Data.List.Induction
import Mathlib.Data.List.Nodup
import Mathlib.Data.List.Perm.Basic
import Mathlib.Algebra.Order.Group.Int
import Mathlib.Tactic.SplitIfs

/-!
# Enum types as ordered maps

What is listed in an enum type depends on the last addition of each name only. A member that is
added goes behind all members whose value is no greater, so members ascend by value, and members of
one value stand in the order of their last additions. This is what makes it possible to look for the
place of a member by bisection: in an ascending list the values up to a given one come first.

## Main definitions

* `EnumType.lastAdds`: the additions that no later one overrides.
* `EnumType.FindsEnd`: what a search for the place of a member is relied on for.
* `EnumType.bisect`: such a search.
* `EnumType.IsOrderedMap`: how a type answers after some additions.

## Main statements

* `EnumType.ordered_add`: one more addition.
* `EnumTable.ordered_maps`: types and tables of types behave as ordered maps.
-/

namespace ReactiveFrames

/-- Names that are listed once are looked up as they are listed. -/
theorem map_find?_eq_some_iff {α : Type} {entries : List (String × α)}
    (h : (entries.map (·.1)).Nodup) {name : String} {value : α} :
    (entries.find? fun e ↦ e.1 = name).map (·.2) = some value ↔ (name, value) ∈ entries := by
  rw [Option.map_eq_some_iff]
  constructor
  · rintro ⟨e, he, rfl⟩
    have hname : e.1 = name := of_decide_eq_true (List.find?_some he :)
    exact hname ▸ List.mem_of_find?_eq_some he
  · intro hmem
    obtain ⟨e, he⟩ : ∃ e, entries.find? (fun e ↦ e.1 = name) = some e :=
      Option.isSome_iff_exists.1 (List.find?_isSome.2 ⟨_, hmem, by simp⟩)
    have hname : e.1 = name := of_decide_eq_true (List.find?_some he :)
    have heq : e = (name, value) :=
      List.inj_on_of_nodup_map h (List.mem_of_find?_eq_some he) hmem hname
    exact ⟨e, he, congrArg Prod.snd heq⟩

namespace Table

variable {α : Type}

theorem findEntry?_eq_map_find? (name : String) (entries : List (String × α)) :
    findEntry? name entries = (entries.find? fun e ↦ e.1 = name).map (·.2) := by
  induction entries with
  | nil => rfl
  | cons e rest ih =>
    rw [Table.findEntry?, List.find?_cons]
    by_cases h : name = e.1
    · simp [h]
    · rw [if_neg h, ih]
      simp [Ne.symm h]

theorem nodup_names (t : Table α) : (t.entries.map (·.1)).Nodup :=
  (List.pairwise_map.2 t.ascending).imp String.ne_of_lt

theorem find?_eq_some_iff {t : Table α} {name : String} {value : α} :
    t.find? name = some value ↔ (name, value) ∈ t.entries := by
  rw [find?, findEntry?_eq_map_find?, map_find?_eq_some_iff t.nodup_names]

end Table

namespace EnumType

variable {t : EnumType} {adds members front back : List (String × Int)} {member : String}
  {value : Int}

/-! ## Last additions -/

/-- The additions that are not overridden by a later addition of the same name, in order. -/
def lastAdds : List (String × Int) → List (String × Int)
  | [] => []
  | a :: later => if ∃ b ∈ later, b.1 = a.1 then lastAdds later else a :: lastAdds later

/-- The last addition of the name gave it the value. -/
def IsLast (adds : List (String × Int)) (member : String) (value : Int) : Prop :=
  ∃ before after, adds = before ++ (member, value) :: after ∧ ∀ a ∈ after, a.1 ≠ member

theorem mem_lastAdds : (member, value) ∈ lastAdds adds ↔ IsLast adds member value := by
  induction adds with
  | nil =>
    refine ⟨fun h ↦ absurd h List.not_mem_nil, ?_⟩
    rintro ⟨before, after, h, -⟩
    exact absurd h (by simp)
  | cons a later ih =>
    have hlater : IsLast later member value → IsLast (a :: later) member value := by
      rintro ⟨before, after, rfl, hafter⟩
      exact ⟨a :: before, after, rfl, hafter⟩
    rw [lastAdds]
    constructor
    · intro h
      split_ifs at h with hadded
      · exact hlater (ih.1 h)
      · rcases List.mem_cons.1 h with rfl | h
        · exact ⟨[], later, rfl, fun b hb heq ↦ hadded ⟨b, hb, heq⟩⟩
        · exact hlater (ih.1 h)
    · rintro ⟨before, after, h, hafter⟩
      rcases List.cons_eq_append_iff.1 h with ⟨rfl, h⟩ | ⟨before', rfl, rfl⟩
      · obtain ⟨rfl, rfl⟩ := List.cons.inj h
        rw [if_neg]
        · exact List.mem_cons_self
        · rintro ⟨b, hb, heq⟩
          exact hafter b hb heq
      · have hmem := ih.2 ⟨before', after, rfl, hafter⟩
        split_ifs
        · exact hmem
        · exact List.mem_cons_of_mem _ hmem

/-- A further addition overrides the earlier ones of its name. -/
theorem lastAdds_append (adds : List (String × Int)) (a : String × Int) :
    lastAdds (adds ++ [a]) = (lastAdds adds).filter (fun b ↦ b.1 ≠ a.1) ++ [a] := by
  induction adds with
  | nil => simp [lastAdds]
  | cons b later ih =>
    rw [List.cons_append, lastAdds, lastAdds, ih]
    by_cases hadded : ∃ c ∈ later, c.1 = b.1
    · obtain ⟨c, hc, heq⟩ := hadded
      rw [if_pos ⟨c, List.mem_append_left _ hc, heq⟩, if_pos ⟨c, hc, heq⟩]
    · rw [if_neg hadded]
      by_cases hsame : b.1 = a.1
      · rw [if_pos ⟨a, by simp, hsame.symm⟩, List.filter_cons_of_neg (by simp [hsame])]
      · rw [if_neg, List.filter_cons_of_pos (by simp [hsame]), List.cons_append]
        rintro ⟨c, hc, heq⟩
        rcases List.mem_append.1 hc with hc | hc
        · exact hadded ⟨c, hc, heq⟩
        · exact hsame (List.mem_singleton.1 hc ▸ heq.symm)

theorem nodup_lastAdds (adds : List (String × Int)) : ((lastAdds adds).map (·.1)).Nodup := by
  -- From the right, because it is the last addition that overrides others.
  induction adds using List.reverseRecOn with
  | nil => exact List.nodup_nil
  | append_singleton adds a ih =>
    rw [lastAdds_append, List.map_append, List.map_singleton]
    refine List.nodup_append.2 ⟨(List.filter_sublist.map _).nodup ih, List.nodup_singleton _, ?_⟩
    rintro name hname _ hlast rfl
    obtain ⟨b, hb, rfl⟩ := List.mem_map.1 hname
    exact of_decide_eq_true (List.mem_filter.1 hb).2 (List.mem_singleton.1 hlast)

/-! ## The place of a member -/

/-- Values ascend. -/
def Ascending (members : List (String × Int)) : Prop := members.Pairwise fun a b ↦ a.2 ≤ b.2

/-- In an ascending list the values up to a given one come first. -/
theorem Ascending.exists_append (h : Ascending members) (value : Int) :
    ∃ front back, members = front ++ back ∧ (∀ a ∈ front, a.2 ≤ value) ∧
      ∀ a ∈ back, value < a.2 := by
  induction members with
  | nil => exact ⟨[], [], rfl, by simp, by simp⟩
  | cons a rest ih =>
    obtain ⟨ha, hrest⟩ := List.pairwise_cons.1 h
    by_cases hle : a.2 ≤ value
    · obtain ⟨front, back, rfl, hfront, hback⟩ := ih hrest
      exact ⟨a :: front, back, rfl, List.forall_mem_cons.2 ⟨hle, hfront⟩, hback⟩
    · have hlt : value < a.2 := Int.not_le.1 hle
      exact ⟨[], a :: rest, rfl, by simp,
        List.forall_mem_cons.2 ⟨hlt, fun b hb ↦ lt_of_lt_of_le hlt (ha b hb)⟩⟩

theorem place_append (hfront : ∀ a ∈ front, a.2 ≤ value) (hback : ∀ a ∈ back, value < a.2) :
    place member value (front ++ back) = front ++ (member, value) :: back := by
  have hfront' : ∀ a ∈ front, decide (a.2 ≤ value) = true := fun a ha ↦
    decide_eq_true (hfront a ha)
  have hnone : back.takeWhile (fun a ↦ decide (a.2 ≤ value)) = [] ∧
      back.dropWhile (fun a ↦ decide (a.2 ≤ value)) = back := by
    cases back with
    | nil => exact ⟨rfl, rfl⟩
    | cons a rest =>
      have ha : ¬a.2 ≤ value := Int.not_le.2 (hback a List.mem_cons_self)
      simp [ha]
  rw [place, List.takeWhile_append_of_pos hfront', List.dropWhile_append_of_pos hfront', hnone.1,
    hnone.2, List.append_nil]

theorem Ascending.place (h : Ascending members) (member : String) (value : Int) :
    Ascending (place member value members) := by
  obtain ⟨front, back, rfl, hfront, hback⟩ := h.exists_append value
  obtain ⟨hf, hb, hfb⟩ := List.pairwise_append.1 h
  rw [place_append hfront hback]
  refine List.pairwise_append.2
    ⟨hf, List.pairwise_cons.2 ⟨fun a ha ↦ le_of_lt (hback a ha), hb⟩, ?_⟩
  intro a ha b hb
  rcases List.mem_cons.1 hb with rfl | hb
  · exact hfront a ha
  · exact hfb a ha b hb

/-- A member is placed behind all others of its value. -/
theorem Ascending.filter_place (h : Ascending members) (member : String) (value v : Int) :
    (EnumType.place member value members).filter (fun a ↦ a.2 = v)
      = (members ++ [(member, value)]).filter fun a ↦ a.2 = v := by
  obtain ⟨front, back, rfl, hfront, hback⟩ := h.exists_append value
  rw [place_append hfront hback, List.append_assoc, List.filter_append, List.filter_append,
    List.filter_append]
  congr 1
  by_cases hv : value = v
  · have hnone : back.filter (fun a ↦ a.2 = v) = [] := by
      refine List.filter_eq_nil_iff.2 fun a ha ↦ ?_
      rw [decide_eq_true_iff]
      exact ne_of_gt (hv ▸ hback a ha)
    simp [hv, hnone]
  · simp [hv]

/-! ## Looking for the place -/

/-- The search finds the end of the items with a property, wherever they come before all items
without it. In other lists it may find anything. -/
def FindsEnd (search : (String × Int → Bool) → List (String × Int) → Nat) : Prop :=
  ∀ p front back, (∀ a ∈ front, p a = true) → (∀ a ∈ back, p a = false) →
    search p (front ++ back) = front.length

/-- Adds a member at the place that a search finds. -/
def addBy (search : (String × Int → Bool) → List (String × Int) → Nat) (t : EnumType)
    (a : String × Int) : EnumType :=
  let others := t.members.filter fun m ↦ m.1 ≠ a.1
  { t with members := others.insertIdx (search (fun m ↦ m.2 ≤ a.2) others) a }

theorem addBy_eq_add {search : (String × Int → Bool) → List (String × Int) → Nat}
    (hsearch : FindsEnd search) (ht : Ascending t.members) (a : String × Int) :
    t.addBy search a = t.add a.1 a.2 := by
  have hothers : Ascending (t.members.filter fun m ↦ m.1 ≠ a.1) := ht.filter _
  obtain ⟨front, back, heq, hfront, hback⟩ := hothers.exists_append a.2
  have hend := hsearch (fun m ↦ decide (m.2 ≤ a.2)) front back
    (fun m hm ↦ decide_eq_true (hfront m hm))
    fun m hm ↦ decide_eq_false (Int.not_le.2 (hback m hm))
  have hinsert : (front ++ back).insertIdx front.length a = front ++ a :: back :=
    List.modifyTailIdx_add (List.cons a) 0 front back
  rw [addBy, add, heq, place_append hfront hback, hend, hinsert]

/-! ## Bisection -/

/-- Looks for the end of the items with a property between two positions, by halves. -/
def bisect (p : String × Int → Bool) (items : List (String × Int)) : Nat → Nat → Nat → Nat
  | 0, low, _ => low
  | steps + 1, low, high =>
    if low < high then
      if (items[(low + high) / 2]?).any p then bisect p items steps ((low + high) / 2 + 1) high
      else bisect p items steps low ((low + high) / 2)
    else low

/-- The end of the items with the property stays between the two positions. -/
theorem bisect_append {p : String × Int → Bool} {front back : List (String × Int)}
    (hfront : ∀ a ∈ front, p a = true) (hback : ∀ a ∈ back, p a = false) {steps low high : Nat}
    (hlow : low ≤ front.length) (hhigh : front.length ≤ high) (hsteps : high ≤ low + steps)
    (hlength : high ≤ (front ++ back).length) :
    bisect p (front ++ back) steps low high = front.length := by
  induction steps generalizing low high with
  | zero =>
    rw [bisect]
    omega
  | succ steps ih =>
    rw [bisect]
    by_cases hlt : low < high
    · -- The item in the middle tells on which side of it the end of the items with the property is.
      rw [if_pos hlt]
      have hmiddle : (low + high) / 2 < high := by omega
      by_cases hfirst : (low + high) / 2 < front.length
      · have hitem : ((front ++ back)[(low + high) / 2]?).any p = true := by
          rw [List.getElem?_append_left hfirst, List.getElem?_eq_getElem hfirst]
          exact hfront _ (List.getElem_mem hfirst)
        rw [if_pos hitem]
        exact ih (by omega) hhigh (by omega) hlength
      · have hitem : ((front ++ back)[(low + high) / 2]?).any p = false := by
          rw [List.getElem?_append_right (by omega), Option.any_eq_false_iff_get]
          intro hsome
          exact hback _ (List.mem_of_getElem? (Option.some_get hsome).symm)
        rw [hitem, if_neg Bool.false_ne_true]
        exact ih hlow (by omega) (by omega) (by omega)
    · rw [if_neg hlt]
      omega

theorem findsEnd_bisect :
    FindsEnd fun p items ↦ bisect p items items.length 0 items.length := by
  intro p front back hfront hback
  refine bisect_append hfront hback (Nat.zero_le _) ?_ (Nat.le_add_left _ _) (le_refl _)
  rw [List.length_append]
  exact Nat.le_add_right _ _

/-! ## Types after some additions -/

/-- The members are the last additions, ascending by value and otherwise in their order. -/
structure Lists (t : EnumType) (adds : List (String × Int)) : Prop where
  ascending : Ascending t.members
  stable : ∀ v, t.members.filter (fun a ↦ a.2 = v) = (lastAdds adds).filter fun a ↦ a.2 = v

/-- One more addition is listed behind all others of its value, and overrides its name. -/
theorem Lists.add (h : t.Lists adds) (a : String × Int) : (t.add a.1 a.2).Lists (adds ++ [a]) := by
  have hothers : Ascending (t.members.filter fun m ↦ m.1 ≠ a.1) := h.ascending.filter _
  refine ⟨hothers.place a.1 a.2, fun v ↦ ?_⟩
  rw [lastAdds_append, EnumType.add, hothers.filter_place, List.filter_append, List.filter_append,
    List.filter_comm, h.stable v, List.filter_comm]

theorem lists_ofMembers (name : String) (adds : List (String × Int)) :
    (ofMembers name adds).Lists adds := by
  -- Members are added from the left, so one more addition is made to the type of those before it.
  induction adds using List.reverseRecOn with
  | nil => exact ⟨.nil, fun _ ↦ rfl⟩
  | append_singleton adds a ih =>
    rw [ofMembers, List.foldl_append]
    exact ih.add a

theorem name_ofMembers (name : String) (adds : List (String × Int)) :
    (ofMembers name adds).name = name := by
  induction adds using List.reverseRecOn with
  | nil => rfl
  | append_singleton adds a ih =>
    rw [ofMembers, List.foldl_append]
    exact ih

/-- Whatever search finds the places of members, the additions come to the same. -/
theorem foldl_addBy_eq_ofMembers {search : (String × Int → Bool) → List (String × Int) → Nat}
    (hsearch : FindsEnd search) (name : String) (adds : List (String × Int)) :
    adds.foldl (addBy search) ⟨name, []⟩ = ofMembers name adds := by
  induction adds using List.reverseRecOn with
  | nil => rfl
  | append_singleton adds a ih =>
    rw [ofMembers, List.foldl_append, List.foldl_append, ih]
    exact addBy_eq_add hsearch (lists_ofMembers name adds).ascending a

theorem Lists.perm (h : t.Lists adds) : t.members.Perm (lastAdds adds) := by
  refine List.perm_iff_count.2 fun a ↦ ?_
  have hcount (members : List (String × Int)) :
      (members.filter fun b ↦ b.2 = a.2).count a = members.count a :=
    List.count_filter (by simp)
  rw [← hcount, h.stable, hcount]

/-- How a type answers after some additions. -/
structure IsOrderedMap (t : EnumType) (adds : List (String × Int)) : Prop where
  /-- Each name is listed once. -/
  nodup : (t.members.map (·.1)).Nodup
  /-- A name is listed with the value of its last addition. -/
  mem_members : ∀ m v, (m, v) ∈ t.members ↔ IsLast adds m v
  /-- Members ascend by value. -/
  ascending : Ascending t.members
  /-- Members of one value stand in the order of their last additions. -/
  stable : ∀ v, t.members.filter (fun a ↦ a.2 = v) = (lastAdds adds).filter fun a ↦ a.2 = v
  valueOf? : ∀ m v, t.valueOf? m = some v ↔ IsLast adds m v
  valueOf?_eq_none : ∀ m, t.valueOf? m = none ↔ ∀ a ∈ adds, a.1 ≠ m
  /-- The name of a value is the one with the earliest last addition. -/
  nameOf? : ∀ v, t.nameOf? v = ((lastAdds adds).find? fun a ↦ a.2 = v).map (·.1)
  nameOf?_eq_none : ∀ v, t.nameOf? v = none ↔ ∀ m, t.valueOf? m ≠ some v
  valueOf?_nameOf? : ∀ v m, t.nameOf? v = some m → t.valueOf? m = some v

theorem valueOf?_eq_some_iff (h : (t.members.map (·.1)).Nodup) :
    t.valueOf? member = some value ↔ (member, value) ∈ t.members := map_find?_eq_some_iff h

/-- A name was added if and only if there is a last addition of it. -/
theorem exists_isLast_iff : (∃ v, IsLast adds member v) ↔ ∃ a ∈ adds, a.1 = member := by
  constructor
  · rintro ⟨v, before, after, rfl, -⟩
    exact ⟨(member, v), by simp, rfl⟩
  · intro hadded
    induction adds with
    | nil => simp at hadded
    | cons a later ih =>
      by_cases hlater : ∃ b ∈ later, b.1 = member
      · obtain ⟨v, before, after, rfl, hafter⟩ := ih hlater
        exact ⟨v, a :: before, after, rfl, hafter⟩
      · obtain ⟨b, hb, rfl⟩ := hadded
        rcases List.mem_cons.1 hb with rfl | hb
        · exact ⟨b.2, [], later, rfl, fun c hc heq ↦ hlater ⟨c, hc, heq⟩⟩
        · exact absurd ⟨b, hb, rfl⟩ hlater

theorem Lists.isOrderedMap (h : t.Lists adds) : t.IsOrderedMap adds := by
  have hnodup : (t.members.map (·.1)).Nodup :=
    (h.perm.map _).nodup_iff.2 (nodup_lastAdds adds)
  have hmem (m : String) (v : Int) : (m, v) ∈ t.members ↔ IsLast adds m v :=
    h.perm.mem_iff.trans mem_lastAdds
  have hvalue (m : String) (v : Int) : t.valueOf? m = some v ↔ IsLast adds m v :=
    (valueOf?_eq_some_iff hnodup).trans (hmem m v)
  have hname (v : Int) (m : String) (hm : t.nameOf? v = some m) : t.valueOf? m = some v := by
    obtain ⟨a, ha, rfl⟩ := Option.map_eq_some_iff.1 hm
    have hv : a.2 = v := of_decide_eq_true (List.find?_some ha :)
    exact (valueOf?_eq_some_iff hnodup).2 (hv ▸ List.mem_of_find?_eq_some ha)
  refine ⟨hnodup, hmem, h.ascending, h.stable, hvalue, fun m ↦ ?_, fun v ↦ ?_, fun v ↦ ?_, hname⟩
  · rw [Option.eq_none_iff_forall_ne_some]
    have hadded : (∃ v, IsLast adds m v) ↔ ∃ a ∈ adds, a.1 = m := exists_isLast_iff
    constructor
    · intro hnone a ha heq
      obtain ⟨v, hlast⟩ := hadded.2 ⟨a, ha, heq⟩
      exact hnone v ((hvalue m v).2 hlast)
    · intro hnone v hv
      obtain ⟨a, ha, heq⟩ := hadded.1 ⟨v, (hvalue m v).1 hv⟩
      exact hnone a ha heq
  · rw [EnumType.nameOf?, ← List.head?_filter, h.stable, List.head?_filter]
  · constructor
    · intro hnone m hm
      have hlisted := (valueOf?_eq_some_iff hnodup).1 hm
      have hfind := List.find?_eq_none.1 (Option.map_eq_none_iff.1 hnone) _ hlisted
      exact hfind (decide_eq_true rfl)
    · intro hnone
      rw [Option.eq_none_iff_forall_ne_some]
      exact fun m hm ↦ hnone m (hname v m hm)

/-- Names that are added once each are all last additions. -/
theorem lastAdds_eq_self (h : (adds.map (·.1)).Nodup) : lastAdds adds = adds := by
  induction adds with
  | nil => rfl
  | cons a later ih =>
    obtain ⟨hnew, hlater⟩ := List.nodup_cons.1 h
    rw [lastAdds, if_neg, ih hlater]
    rintro ⟨b, hb, heq⟩
    exact hnew (List.mem_map.2 ⟨b, hb, heq⟩)

end EnumType

namespace EnumTable

/-! ## Tables of types -/

theorem entries_ofDefinitions (definitions : Table (Table Int)) :
    (ofDefinitions definitions).entries
      = definitions.entries.map fun d ↦ (d.1, EnumType.ofMembers d.1 d.2.entries) := by
  have hlist : ofDefinitions definitions = Table.ofList
      (definitions.entries.map fun d ↦ (d.1, EnumType.ofMembers d.1 d.2.entries)) := by
    rw [Table.ofList, List.foldl_map, ofDefinitions]
    simp only [register, EnumType.name_ofMembers]
  rw [hlist]
  exact Table.entries_ofList (List.pairwise_map.2 definitions.ascending)

theorem type?_ofDefinitions (definitions : Table (Table Int)) (name : String) :
    (ofDefinitions definitions).type? name
      = (definitions.find? name).map fun members ↦ EnumType.ofMembers name members.entries := by
  refine Option.ext fun t ↦ ?_
  rw [type?, Table.find?_eq_some_iff, entries_ofDefinitions, Option.map_eq_some_iff, List.mem_map]
  constructor
  · rintro ⟨⟨n, members⟩, hd, heq⟩
    obtain ⟨rfl, rfl⟩ := Prod.mk.inj heq
    exact ⟨members, Table.find?_eq_some_iff.2 hd, rfl⟩
  · rintro ⟨members, hd, rfl⟩
    exact ⟨(name, members), Table.find?_eq_some_iff.1 hd, rfl⟩

/-- A type has exactly the members of a definition. -/
structure Defines (definition : Table Int) (name : String) (t : EnumType) : Prop where
  name : t.name = name
  members : t.members.Perm definition.entries
  valueOf? : ∀ m, t.valueOf? m = definition.find? m

theorem defines_ofMembers (members : Table Int) (name : String) :
    Defines members name (EnumType.ofMembers name members.entries) := by
  have hlists := EnumType.lists_ofMembers name members.entries
  have hperm := hlists.perm
  rw [EnumType.lastAdds_eq_self members.nodup_names] at hperm
  refine ⟨EnumType.name_ofMembers name _, hperm, fun m ↦ Option.ext fun v ↦ ?_⟩
  rw [EnumType.valueOf?_eq_some_iff hlists.isOrderedMap.nodup, hperm.mem_iff,
    Table.find?_eq_some_iff]

/-- Enum types behave as ordered maps, whatever search finds the places of members: after any
additions a type lists each name once, with the value of its last addition, ascending by value and
for one value in the order of the last additions; values are looked up by names and names by values
as they are listed. The table of a set of definitions has for each defined type exactly its members
and their values, and no other types. -/
theorem ordered_maps :
    (∀ name adds, (EnumType.ofMembers name adds).IsOrderedMap adds ∧
      ∀ search, EnumType.FindsEnd search →
        adds.foldl (EnumType.addBy search) ⟨name, []⟩ = EnumType.ofMembers name adds) ∧
    ∀ (definitions : Table (Table Int)) (name : String),
      (definitions.find? name = none → (ofDefinitions definitions).type? name = none) ∧
      ∀ members, definitions.find? name = some members →
        ∃ t, (ofDefinitions definitions).type? name = some t ∧ Defines members name t := by
  refine ⟨fun name adds ↦ ⟨(EnumType.lists_ofMembers name adds).isOrderedMap, fun search hsearch ↦
    EnumType.foldl_addBy_eq_ofMembers hsearch name adds⟩, fun definitions name ↦ ⟨fun hnone ↦ ?_,
    fun members hmembers ↦ ⟨_, ?_, defines_ofMembers members name⟩⟩⟩
  · rw [type?_ofDefinitions, hnone, Option.map_none]
  · rw [type?_ofDefinitions, hmembers, Option.map_some]

/-- Names are added again with smaller and with equal values, and their places are found by
bisection. -/
theorem ordered_maps_bisect :
    [("b", 2), ("a", 1), ("b", 1), ("c", 2), ("a", 1)].foldl
        (EnumType.addBy fun p items ↦ EnumType.bisect p items items.length 0 items.length) ⟨"T", []⟩
      = ⟨"T", [("b", 1), ("a", 1), ("c", 2)]⟩ ∧
    ∃ t, (ofDefinitions (Table.empty.insert "T" (Table.empty.insert "a" 1))).type? "T" = some t ∧
      Defines (Table.empty.insert "a" 1) "T" t := by
  refine ⟨?_, (ordered_maps.2 _ "T").2 _ (by simp)⟩
  rw [(ordered_maps.1 "T" _).2 _ EnumType.findsEnd_bisect]
  decide

end EnumTable

end ReactiveFrames
