import IdlBindings.Declaration.Mapping
import IdlBindings.Proofs.Distinct

/-!
The union that a type is written as. Unions inside a union are opened, so the type expression of a
type is the union of its leaves however they are nested (`TypeExpr.ofType_eq_unionOf_leaves`), and
no union in it has a member twice, a union for a member, or `any`.
-/

namespace IdlBindings

/-! ### Leaves -/

/-- What is left of a type when its unions are opened. -/
inductive Leaf where
  | plain (type : IdlType)
  /-- What `?` adds to a type. -/
  | null

namespace IdlType

mutual

/-- The leaves of a type in the order that they are written, without extended attributes. A type
that may be `null` has that behind its own leaves. -/
def leaves : IdlType → List Leaf
  | .nullable inner => inner.leaves ++ [.null]
  | .union members => leavesOfAll members
  | .annotated _ inner => inner.leaves
  | .primitive p => [.plain (.primitive p)]
  | .named name => [.plain (.named name)]
  | .sequence item => [.plain (.sequence item)]
  | .frozenArray item => [.plain (.frozenArray item)]
  | .observableArray item => [.plain (.observableArray item)]
  | .record key value => [.plain (.record key value)]
  | .promise result => [.plain (.promise result)]
  | .any => [.plain .any]

def leavesOfAll : List IdlType → List Leaf
  | [] => []
  | type :: rest => type.leaves ++ leavesOfAll rest

end

mutual

/-- Every union that is opened for the leaves of the type has a member. -/
def isInhabited : IdlType → Bool
  | .nullable inner => inner.isInhabited
  | .union members => !members.isEmpty && allInhabited members
  | .annotated _ inner => inner.isInhabited
  | _ => true

def allInhabited : List IdlType → Bool
  | [] => true
  | type :: rest => type.isInhabited && allInhabited rest

end

theorem leavesOfAll_eq_flatMap (types : List IdlType) :
    leavesOfAll types = types.flatMap leaves := by
  induction types with
  | nil => rfl
  | cons type rest ih => rw [leavesOfAll, List.flatMap_cons, ih]

theorem allInhabited_iff {types : List IdlType} :
    allInhabited types = true ↔ ∀ type ∈ types, type.isInhabited = true := by
  induction types with
  | nil => simp [allInhabited]
  | cons type rest ih => simp [allInhabited, ih]

mutual

theorem leaves_ne_nil : ∀ type : IdlType, type.isInhabited = true → type.leaves ≠ []
  | .nullable inner, _ => by simp [leaves]
  | .union members, h => by
      rw [isInhabited, Bool.and_eq_true, Bool.not_eq_true'] at h
      exact leavesOfAll_ne_nil members h.1 h.2
  | .annotated _ inner, h => leaves_ne_nil inner h
  | .primitive _, _ | .named _, _ | .sequence _, _ | .frozenArray _, _ | .observableArray _, _
  | .record _ _, _ | .promise _, _ | .any, _ => by simp [leaves]

theorem leavesOfAll_ne_nil : ∀ types : List IdlType, types.isEmpty = false →
    allInhabited types = true → leavesOfAll types ≠ []
  | [], hne, _ => by cases hne
  | type :: rest, _, h => by
      rw [allInhabited, Bool.and_eq_true] at h
      exact List.append_ne_nil_of_left_ne_nil (leaves_ne_nil type h.1) _

end

end IdlType

namespace TypeExpr

/-! ### Unions of unions -/

/-- The type is no union. -/
def Single (type : TypeExpr) : Prop := ∀ members, type ≠ .union members

variable {types others : List TypeExpr} {type : TypeExpr}

theorem Single.unionMembers (h : type.Single) : type.unionMembers = [type] := by
  cases type with
  | union members => exact absurd rfl (h members)
  | _ => rfl

theorem flatMap_unionMembers (h : ∀ type ∈ types, type.Single) :
    types.flatMap unionMembers = types := by
  induction types with
  | nil => rfl
  | cons type rest ih =>
      obtain ⟨htype, hrest⟩ := List.forall_mem_cons.1 h
      rw [List.flatMap_cons, htype.unionMembers, ih hrest, List.singleton_append]

/-- A union only depends on its distinct members. -/
theorem unionOf_congr (h : (types.flatMap unionMembers).eraseDups
    = (others.flatMap unionMembers).eraseDups) : unionOf types = unionOf others := by
  rw [unionOf, unionOf, h]

/-- Among other types, `any` takes in all the others. -/
theorem unionOf_of_any_mem (h : .keyword "any" ∈ types.flatMap unionMembers) :
    unionOf types = .keyword "any" :=
  if_pos (List.contains_iff_mem.2 (List.mem_eraseDups.2 h))

/-- A union without `any` has the distinct types for members. -/
theorem unionMembers_unionOf (hne : types ≠ []) (hsingle : ∀ type ∈ types, type.Single)
    (hany : .keyword "any" ∉ types) : (unionOf types).unionMembers = types.eraseDups := by
  have hnot : ¬types.eraseDups.contains (.keyword "any") = true := by
    rwa [List.contains_iff_mem, List.mem_eraseDups]
  rw [unionOf, flatMap_unionMembers hsingle, if_neg hnot]
  split
  · rename_i hnil
    obtain ⟨type, htype⟩ := List.exists_mem_of_ne_nil types hne
    have hmem := List.mem_eraseDups.2 htype
    rw [hnil] at hmem
    cases hmem
  · rename_i only honly
    have hmem : only ∈ types := List.mem_eraseDups.1 (honly ▸ List.mem_singleton_self only)
    rw [(hsingle only hmem).unionMembers, honly]
  · rfl

theorem unionOf_singleton (h : type.Single) : unionOf [type] = type := by
  have hmembers : ([type].flatMap unionMembers).eraseDups = [type] := by
    rw [flatMap_unionMembers (List.forall_mem_singleton.2 h)]
    exact eraseDups_of_nodup (List.nodup_singleton type)
  rw [unionOf, hmembers]
  by_cases hany : type = .keyword "any"
  · rw [hany]
    rfl
  · exact if_neg (by simpa using Ne.symm hany)

/-- A union of unions is the union of all their members. -/
theorem unionOf_map_unionOf {groups : List (List TypeExpr)} (hne : ∀ group ∈ groups, group ≠ [])
    (hsingle : ∀ group ∈ groups, ∀ type ∈ group, type.Single) :
    unionOf (groups.map unionOf) = unionOf groups.flatten := by
  have hflat : ∀ type ∈ groups.flatten, type.Single := by
    intro type htype
    obtain ⟨group, hgroup, hmem⟩ := List.mem_flatten.1 htype
    exact hsingle group hgroup type hmem
  by_cases hany : .keyword "any" ∈ groups.flatten
  · obtain ⟨group, hgroup, hmem⟩ := List.mem_flatten.1 hany
    have habsorbed : unionOf group = .keyword "any" := by
      apply unionOf_of_any_mem
      rwa [flatMap_unionMembers (hsingle group hgroup)]
    have hleft : .keyword "any" ∈ (groups.map unionOf).flatMap unionMembers := by
      refine List.mem_flatMap.2 ⟨_, List.mem_map_of_mem hgroup, ?_⟩
      rw [habsorbed]
      exact List.mem_singleton_self _
    rw [unionOf_of_any_mem hleft, unionOf_of_any_mem]
    rwa [flatMap_unionMembers hflat]
  · apply unionOf_congr
    have hgroups : (groups.map unionOf).flatMap unionMembers = groups.flatMap List.eraseDups := by
      rw [List.flatMap_map]
      refine List.flatMap_congr fun group hgroup => ?_
      refine unionMembers_unionOf (hne group hgroup) (hsingle group hgroup) fun hmem => ?_
      exact hany (List.mem_flatten_of_mem hgroup hmem)
    rw [hgroups, flatMap_unionMembers hflat, eraseDups_flatMap_eraseDups]

/-! ### The union of the leaves -/

theorem single_ofPrimitive (p : Primitive) : (ofPrimitive p).Single := by
  intro members
  unfold ofPrimitive
  repeat' split
  all_goals simp

end TypeExpr

/-- The type expression of a leaf. -/
def Leaf.expr (style : Style) : Leaf → TypeExpr
  | .plain type => TypeExpr.ofType style type
  | .null => .keyword "null"

namespace TypeExpr

mutual

/-- No leaf is a union. -/
theorem single_leaves (style : Style) :
    ∀ type : IdlType, ∀ leaf ∈ type.leaves, (leaf.expr style).Single
  | .nullable inner => by
      intro leaf hleaf
      rcases List.mem_append.1 hleaf with hinner | hnull
      · exact single_leaves style inner leaf hinner
      · rw [List.mem_singleton.1 hnull]
        exact fun _ h => by cases h
  | .union members => single_leavesOfAll style members
  | .annotated _ inner => single_leaves style inner
  | .primitive p => by
      refine List.forall_mem_singleton.2 ?_
      change (ofPrimitive p).Single
      exact single_ofPrimitive p
  | .frozenArray item => by
      refine List.forall_mem_singleton.2 fun members => ?_
      change (if style.readonlyArrays then _ else _) ≠ _
      split <;> simp
  | .named _ | .sequence _ | .observableArray _ | .record _ _ | .promise _ | .any =>
      List.forall_mem_singleton.2 fun _ h => by cases h

theorem single_leavesOfAll (style : Style) :
    ∀ types : List IdlType, ∀ leaf ∈ IdlType.leavesOfAll types, (leaf.expr style).Single
  | [] => List.forall_mem_nil _
  | type :: rest => List.forall_mem_append.2
      ⟨single_leaves style type, single_leavesOfAll style rest⟩

end

/-- What the leaves are written as, without the union. -/
def leafExprs (style : Style) (type : IdlType) : List TypeExpr :=
  type.leaves.map (Leaf.expr style)

theorem single_leafExprs (style : Style) (type : IdlType) :
    ∀ expr ∈ leafExprs style type, expr.Single :=
  List.forall_mem_map.2 (single_leaves style type)

theorem leafExprs_ne_nil {style : Style} {type : IdlType} (h : type.isInhabited = true) :
    leafExprs style type ≠ [] :=
  mt List.map_eq_nil_iff.1 (type.leaves_ne_nil h)

theorem leafExprs_union (style : Style) (members : List IdlType) :
    leafExprs style (.union members) = (members.map (leafExprs style)).flatten := by
  rw [leafExprs, IdlType.leaves, IdlType.leavesOfAll_eq_flatMap, List.map_flatMap,
    ← List.flatMap_def]
  rfl

theorem ofType_of_leaf {style : Style} {type : IdlType} (h : type.leaves = [.plain type]) :
    ofType style type = unionOf (leafExprs style type) := by
  have hsingle : (ofType style type).Single :=
    single_leaves style type (.plain type) (h ▸ List.mem_singleton_self _)
  rw [leafExprs, h]
  exact (unionOf_singleton hsingle).symm

mutual

/-- A type is written as the union of its leaves. -/
theorem ofType_eq (style : Style) : ∀ type : IdlType, type.isInhabited = true →
    ofType style type = unionOf (leafExprs style type)
  | .nullable inner, h => by
      have hinhabited : inner.isInhabited = true := h
      have hinner := ofType_eq style inner hinhabited
      have hnull : Single (.keyword "null") := fun _ heq => by cases heq
      have hleaves : leafExprs style (.nullable inner)
          = [leafExprs style inner, [.keyword "null"]].flatten := by
        simp [leafExprs, IdlType.leaves, Leaf.expr]
      calc ofType style (.nullable inner)
          = unionOf ([leafExprs style inner, [.keyword "null"]].map unionOf) := by
            rw [List.map_cons, List.map_singleton, ← hinner, unionOf_singleton hnull]
            rfl
        _ = unionOf (leafExprs style (.nullable inner)) := by
            rw [hleaves, unionOf_map_unionOf]
            · simpa using leafExprs_ne_nil hinhabited
            · exact List.forall_mem_cons.2 ⟨single_leafExprs style inner,
                List.forall_mem_singleton.2 (List.forall_mem_singleton.2 hnull)⟩
  | .union members, h => by
      rw [IdlType.isInhabited, Bool.and_eq_true] at h
      have hall := IdlType.allInhabited_iff.1 h.2
      calc ofType style (.union members)
          = unionOf ((members.map (leafExprs style)).map unionOf) := by
            rw [List.map_map]
            exact congrArg unionOf (ofTypes_eq style members h.2)
        _ = unionOf (leafExprs style (.union members)) := by
            rw [leafExprs_union, unionOf_map_unionOf]
            · exact List.forall_mem_map.2 fun type htype => leafExprs_ne_nil (hall type htype)
            · exact List.forall_mem_map.2 fun type _ => single_leafExprs style type
  | .annotated _ inner, h => ofType_eq style inner h
  | .primitive _, _ | .named _, _ | .sequence _, _ | .frozenArray _, _ | .observableArray _, _
  | .record _ _, _ | .promise _, _ | .any, _ => ofType_of_leaf rfl

theorem ofTypes_eq (style : Style) : ∀ types : List IdlType, IdlType.allInhabited types = true →
    ofTypes style types = types.map (unionOf ∘ leafExprs style)
  | [], _ => rfl
  | type :: rest, h => by
      rw [IdlType.allInhabited, Bool.and_eq_true] at h
      rw [ofTypes, ofType_eq style type h.1, ofTypes_eq style rest h.2]
      rfl

end

/-! ### Unions inside a type -/

/-- The types that a type is made of. -/
def parts : TypeExpr → List TypeExpr
  | .generic _ args => args
  | .array item => [item]
  | .tuple items => items
  | .union members => members
  | .intersection members => members
  | .function _ result => [result]
  | .keyword _ | .reference _ | .stringLiteral _ | .literal _ | .object _ => []

/-- The first type occurs in the second one, at any depth. -/
inductive Occurs (type : TypeExpr) : TypeExpr → Prop
  | here : Occurs type type
  | inside {outer part : TypeExpr} (hpart : part ∈ outer.parts) (h : Occurs type part) :
      Occurs type outer

/-- The members of a union that says nothing twice. -/
structure Flat (members : List TypeExpr) : Prop where
  several : 2 ≤ members.length
  nodup : members.Nodup
  single : ∀ member ∈ members, member.Single
  noAny : .keyword "any" ∉ members

/-- Every union in the type is flat. -/
def Normal (type : TypeExpr) : Prop := ∀ members, Occurs (.union members) type → Flat members

theorem Normal.part {outer part : TypeExpr} (h : outer.Normal) (hpart : part ∈ outer.parts) :
    part.Normal :=
  fun members hoccurs => h members (.inside hpart hoccurs)

variable {type : TypeExpr} {types : List TypeExpr}

theorem normal_of_parts (hunion : ∀ members, type = .union members → Flat members)
    (hparts : ∀ part ∈ type.parts, part.Normal) : type.Normal := by
  intro members hoccurs
  cases hoccurs with
  | here => exact hunion members rfl
  | inside hpart h => exact hparts _ hpart members h

theorem Single.normal (h : type.Single) (hparts : ∀ part ∈ type.parts, part.Normal) :
    type.Normal :=
  normal_of_parts (fun members heq => absurd heq (h members)) hparts

theorem normal_keyword (word : String) : (keyword word).Normal :=
  Single.normal (fun _ h => by cases h) (List.forall_mem_nil _)

/-- Opening a flat union gives types that are none. -/
theorem Normal.unionMembers (h : type.Normal) :
    ∀ member ∈ type.unionMembers, member.Single ∧ member.Normal := by
  by_cases hsingle : type.Single
  · rw [hsingle.unionMembers]
    exact List.forall_mem_singleton.2 ⟨hsingle, h⟩
  · rw [Single] at hsingle
    push Not at hsingle
    obtain ⟨members, rfl⟩ := hsingle
    exact fun member hmember => ⟨(h members .here).single member hmember, h.part hmember⟩

theorem two_le_length_of_ne {members : List TypeExpr} (hnil : members ≠ [])
    (hone : ∀ only, members ≠ [only]) : 2 ≤ members.length := by
  match members with
  | [] => exact absurd rfl hnil
  | [only] => exact absurd rfl (hone only)
  | _ :: _ :: rest => exact Nat.le_add_left 2 rest.length

theorem normal_unionOf (h : ∀ type ∈ types, type.Normal) : (unionOf types).Normal := by
  have hmembers : ∀ member ∈ (types.flatMap TypeExpr.unionMembers).eraseDups,
      member.Single ∧ member.Normal := by
    intro member hmember
    obtain ⟨type, htype, hmember⟩ := List.mem_flatMap.1 (List.mem_eraseDups.1 hmember)
    exact (h type htype).unionMembers member hmember
  unfold unionOf
  dsimp only
  split
  · exact normal_keyword "any"
  · rename_i hany
    rw [List.contains_iff_mem] at hany
    split
    · exact normal_keyword "never"
    · rename_i only honly
      exact (hmembers only (honly ▸ List.mem_singleton_self only)).2
    · rename_i hnil hone
      refine normal_of_parts (fun members heq => ?_) fun part hpart => (hmembers part hpart).2
      cases heq
      exact {
        several := two_le_length_of_ne hnil hone
        nodup := nodup_eraseDups _
        single := fun member hmember => (hmembers member hmember).1
        noAny := hany }

theorem parts_ofPrimitive (p : Primitive) : (ofPrimitive p).parts = [] := by
  unfold ofPrimitive
  repeat' split
  all_goals rfl

theorem normal_array {item : TypeExpr} (h : item.Normal) : (array item).Normal :=
  Single.normal (fun _ heq => by cases heq) (List.forall_mem_singleton.2 h)

theorem normal_generic {name : String} {args : List TypeExpr} (h : ∀ arg ∈ args, arg.Normal) :
    (generic name args).Normal :=
  Single.normal (fun _ heq => by cases heq) h

mutual

/-- Every union in the type expression of a type is flat. -/
theorem normal_ofType (style : Style) : ∀ type : IdlType, (ofType style type).Normal
  | .nullable inner => normal_unionOf (List.forall_mem_cons.2
      ⟨normal_ofType style inner, List.forall_mem_singleton.2 (normal_keyword "null")⟩)
  | .union members => normal_unionOf (normal_ofTypes style members)
  | .annotated _ inner => normal_ofType style inner
  | .primitive p => by
      apply (single_ofPrimitive p).normal
      rw [parts_ofPrimitive]
      exact List.forall_mem_nil _
  | .named _ => Single.normal (fun _ h => by cases h) (List.forall_mem_nil _)
  | .sequence item | .observableArray item => normal_array (normal_ofType style item)
  | .frozenArray item => by
      have hitem := normal_ofType style item
      rw [ofType]
      split
      · exact normal_generic (List.forall_mem_singleton.2 hitem)
      · exact normal_array hitem
  | .record _ value => normal_generic (List.forall_mem_cons.2
      ⟨normal_keyword "string", List.forall_mem_singleton.2 (normal_ofType style value)⟩)
  | .promise result => by
      apply normal_generic
      refine List.forall_mem_singleton.2 ?_
      split
      · exact normal_keyword "void"
      · exact normal_ofType style result
  | .any => normal_keyword "any"

theorem normal_ofTypes (style : Style) :
    ∀ types : List IdlType, ∀ type ∈ ofTypes style types, type.Normal
  | [] => List.forall_mem_nil _
  | type :: rest => List.forall_mem_cons.2
      ⟨normal_ofType style type, normal_ofTypes style rest⟩

end

/-- A type is written as the union of its leaves, so how unions, `?` and extended attributes nest
does not show. A union in it, at any depth, has two or more members, all different, and none of
them is a union or `any`. -/
theorem ofType_eq_unionOf_leaves (style : Style) {type : IdlType} (h : type.isInhabited = true) :
    ofType style type = unionOf (type.leaves.map (Leaf.expr style))
      ∧ (∀ other : IdlType, other.isInhabited = true → other.leaves = type.leaves →
        ofType style other = ofType style type)
      ∧ ∀ members, Occurs (.union members) (ofType style type) →
        2 ≤ members.length ∧ members.Nodup
          ∧ ∀ member ∈ members, (∀ nested, member ≠ .union nested) ∧ member ≠ .keyword "any" := by
  refine ⟨ofType_eq style type h, fun other hother hleaves => ?_, fun members hoccurs => ?_⟩
  · calc ofType style other
        = unionOf (other.leaves.map (Leaf.expr style)) := ofType_eq style other hother
      _ = unionOf (type.leaves.map (Leaf.expr style)) := by rw [hleaves]
      _ = ofType style type := (ofType_eq style type h).symm
  · have hflat := normal_ofType style type members hoccurs
    refine ⟨hflat.several, hflat.nodup, fun member hmember => ⟨hflat.single member hmember, ?_⟩⟩
    rintro rfl
    exact hflat.noAny hmember

theorem ofType_eq_unionOf_leaves_nested :
    let nested : IdlType :=
      .nullable (.annotated [] (.union [.primitive .long, .nullable (.named "Node")]))
    let other : IdlType := .union [.primitive .long, .nullable (.nullable (.named "Node"))]
    let members := [keyword "number", reference "Node", keyword "null"]
    nested.isInhabited = true ∧ other.isInhabited = true
      ∧ other.leaves = [.plain (.primitive .long), .plain (.named "Node"), .null, .null]
      ∧ ofType Style.default nested = unionOf (other.leaves.map (Leaf.expr Style.default))
      ∧ ofType Style.default other = ofType Style.default nested
      ∧ Occurs (.union members) (ofType Style.default nested) ∧ members.Nodup := by
  intro nested other members
  have hnested : nested.isInhabited = true := rfl
  have hother : other.isInhabited = true := rfl
  have hoccurs : Occurs (.union members) (ofType Style.default nested) := .here
  obtain ⟨heq, hcongr, hflat⟩ := ofType_eq_unionOf_leaves Style.default hnested
  exact ⟨hnested, hother, rfl, heq, hcongr other hother rfl, hoccurs, (hflat members hoccurs).2.1⟩

end TypeExpr

end IdlBindings
