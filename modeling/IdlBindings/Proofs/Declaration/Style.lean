import IdlBindings.Declaration.Block

/-!
What a declaration takes from the style. Types and the lines of members depend on how frozen arrays
are written and on nothing else, and the blocks of a definition on that and on the brands.
-/

namespace IdlBindings

variable {style other : Style}

namespace TypeExpr

mutual

theorem ofType_congr (h : style.readonlyArrays = other.readonlyArrays) :
    ∀ type : IdlType, ofType style type = ofType other type
  | .primitive _ | .named _ | .any => by rw [ofType, ofType]
  | .sequence item | .observableArray item => by rw [ofType, ofType, ofType_congr h item]
  | .frozenArray item => by rw [ofType, ofType, ofType_congr h item, h]
  | .record _ value => by rw [ofType, ofType, ofType_congr h value]
  | .promise result => by rw [ofType, ofType, ofType_congr h result]
  | .nullable inner => by rw [ofType, ofType, ofType_congr h inner]
  | .union members => by rw [ofType, ofType, ofTypes_congr h members]
  | .annotated _ inner => by rw [ofType, ofType, ofType_congr h inner]

theorem ofTypes_congr (h : style.readonlyArrays = other.readonlyArrays) :
    ∀ types : List IdlType, ofTypes style types = ofTypes other types
  | [] => rfl
  | type :: rest => by rw [ofTypes, ofTypes, ofType_congr h type, ofTypes_congr h rest]

end

theorem ofResult_congr (h : style.readonlyArrays = other.readonlyArrays) (type : IdlType) :
    ofResult style type = ofResult other type := by
  rw [ofResult, ofResult, ofType_congr h]

end TypeExpr

namespace Style

variable (h : style.readonlyArrays = other.readonlyArrays)

include h

theorem parameters_congr (args : List Argument) : style.parameters args = other.parameters args :=
  List.map_congr_left fun arg _ => by simp only [parameter, TypeExpr.ofType_congr h]

theorem parameterText_congr (args : List Argument) :
    style.parameterText args = other.parameterText args := by
  rw [parameterText, parameterText, parameters_congr h]

theorem constType_congr (type : IdlType) (value : ConstValue) :
    style.constType type value = other.constType type value := by
  simp only [constType, TypeExpr.ofType_congr h]

theorem methodLine?_congr (o : Operation) : style.methodLine? o = other.methodLine? o := by
  simp only [methodLine?, resultText, parameterText_congr h, TypeExpr.ofResult_congr h]

theorem operationLines_congr (o : Operation) : style.operationLines o = other.operationLines o := by
  simp only [operationLines, indexLine?, typeText, methodLine?_congr h, TypeExpr.ofType_congr h]

theorem iterationLines_congr (owner : String) (i : Iteration) :
    style.iterationLines owner i = other.iterationLines owner i := by
  simp only [iterationLines, parameterText_congr h, TypeExpr.ofType_congr h]

theorem instanceLines_congr (owner : String) (body : MemberBody) :
    style.instanceLines owner body = other.instanceLines owner body := by
  cases body <;> simp only [instanceLines, constLine, attributeLine, typeText, constType_congr h,
    TypeExpr.ofType_congr h, operationLines_congr h, iterationLines_congr h]

theorem objectLines_congr (owner : String) (body : MemberBody) :
    style.objectLines owner body = other.objectLines owner body := by
  cases body <;> simp only [objectLines, constLine, attributeLine, typeText, constType_congr h,
    TypeExpr.ofType_congr h, methodLine?_congr h, parameterText_congr h]

theorem namespaceLines_congr (body : MemberBody) :
    style.namespaceLines body = other.namespaceLines body := by
  cases body <;> simp only [namespaceLines, typeText, resultText, constType_congr h,
    TypeExpr.ofType_congr h, TypeExpr.ofResult_congr h, parameterText_congr h]

theorem objectBlock_congr (name : String) (c : Container) :
    style.objectBlock name c = other.objectBlock name c := by
  simp only [objectBlock, objectLines_congr h]

theorem namespaceBlock_congr (name : String) (c : Container) :
    style.namespaceBlock name c = other.namespaceBlock name c := by
  simp only [namespaceBlock, namespaceLines_congr h]

theorem callbackType_congr (result : IdlType) (args : List Argument) :
    style.callbackType result args = other.callbackType result args := by
  rw [callbackType, callbackType, parameters_congr h, TypeExpr.ofResult_congr h]

variable (hnominal : style.nominal = other.nominal) (hkey : style.brandPrefix = other.brandPrefix)

include hnominal hkey

theorem interfaceBlock_congr (name : String) (c : Container) :
    style.interfaceBlock name c = other.interfaceBlock name c := by
  simp only [interfaceBlock, brand, brandKey, hnominal, hkey, instanceLines_congr h]

theorem blocks_congr (model : Model) (d : Definition) :
    style.blocks model d = other.blocks model d := by
  simp only [blocks, enumerationType, brand, brandKey, hnominal, hkey, TypeExpr.ofType_congr h,
    objectBlock_congr h, namespaceBlock_congr h, callbackType_congr h,
    interfaceBlock_congr h hnominal hkey]

end Style

end IdlBindings
