import Crosstalk.Interpreter.Registers

/-!
# Looking up methods

`lookupMethodInClass` searches the method dictionaries along the superclass
chain, `findNewMethodInClass` first looks into the method cache.
-/

namespace Crosstalk

/-! ## Field indices -/

abbrev superclassIndex : Nat := 0
abbrev messageDictionaryIndex : Nat := 1
abbrev methodArrayIndex : Nat := 1
abbrev selectorStart : Nat := 2
abbrev headerIndex : Nat := 0
abbrev literalStart : Nat := 1
abbrev messageSelectorIndex : Nat := 0
abbrev messageArgumentsIndex : Nat := 1
abbrev messageSize : Nat := 2

/-! ## Methods -/

def headerOf (methodPointer : Nat) : OM Nat := fetchPointerOfObject headerIndex methodPointer

def literalOfMethod (offset : Int) (methodPointer : Nat) : OM Nat :=
  fetchPointerOfObject (offset + literalStart) methodPointer

def literalCountOf (methodPointer : Nat) : OM Nat := do
  return extractBitsToOf 9 14 (← headerOf methodPointer)

def flagValueOf (methodPointer : Nat) : OM Nat := do
  return extractBitsToOf 0 2 (← headerOf methodPointer)

def headerExtensionOf (methodPointer : Nat) : OM Nat := do
  let literalCount ← literalCountOf methodPointer
  literalOfMethod (literalCount - 2) methodPointer

def primitiveIndexOf (methodPointer : Nat) : OM Nat := do
  if (← flagValueOf methodPointer) = 7 then
    return extractBitsToOf 7 14 (← headerExtensionOf methodPointer)
  else
    return 0

/-! ## Dictionaries -/

/-- The method at an index of the method array, with its primitive. -/
def methodAt (dictionary : Nat) (index : Int) : OM (Nat × Nat) := do
  let methodArray ← fetchPointerOfObject methodArrayIndex dictionary
  let newMethod ← fetchPointerOfObject (index - selectorStart) methodArray
  return (newMethod, ← primitiveIndexOf newMethod)

/-- One probe; the variables are `index` and `wrapAround`. -/
def probeDictionary (messageSelector dictionary : Nat) (length : Int) (c : Nat × Bool) :
    OM (Nat × Bool ⊕ Option (Nat × Nat)) := do
  let nextSelector ← fetchPointerOfObject c.1 dictionary
  if nextSelector = nilPointer then
    return .inr none
  else if nextSelector = messageSelector then
    return .inr (some (← methodAt dictionary c.1))
  else if (c.1 : Int) + 1 = length then
    if c.2 then return .inr none else return .inl (selectorStart, true)
  else
    return .inl (c.1 + 1, c.2)

def hash (objectPointer : Nat) : Nat := objectPointer >>> 1

/-- The `int` `mask` as an unsigned number of 32 bits. -/
def maskedHash (mask : Int) (messageSelector : Nat) : Nat :=
  (mask % 4294967296).toNat &&& hash messageSelector

/-- The new values of `newMethod` and `primitiveIndex`, or `none` for false. -/
def lookupMethodInDictionary (messageSelector dictionary : Nat) : OM (Option (Nat × Nat)) := do
  let length ← fetchWordLengthOf dictionary
  let mask := length - selectorStart - 1
  iterate (probeDictionary messageSelector dictionary length)
    (maskedHash mask messageSelector + selectorStart, false)

/-! ## Classes -/

def superclassOf (classPointer : Nat) : OM Nat := fetchPointerOfObject superclassIndex classPointer

def lookupRound (messageSelector currentClass : Nat) : OM (Nat ⊕ Option (Nat × Nat)) := do
  if currentClass = nilPointer then
    return .inr none
  else
    let dictionary ← fetchPointerOfObject messageDictionaryIndex currentClass
    match ← lookupMethodInDictionary messageSelector dictionary with
    | some found => return .inr (some found)
    | none => return .inl (← superclassOf currentClass)

/-- The loop of `lookupMethodInClass` over the superclass chain. -/
def lookupInChain (messageSelector cls : Nat) : OM (Option (Nat × Nat)) :=
  iterate (lookupRound messageSelector) cls

/-! ## Messages that are not understood -/

def transfer (count : Nat) (firstFrom : Int) (fromOop : Nat) (firstTo : Int) (toOop : Nat) :
    OM Unit :=
  forN count fun i => do
    let oop ← fetchPointerOfObject (firstFrom + i) fromOop
    storePointerOfObjectWithValue (firstTo + i) toOop oop
    storePointerOfObjectWithValue (firstFrom + i) fromOop nilPointer

def createActualMessage : IM Unit := do
  let s ← get
  let argumentArray ← instantiateClassWithPointers classArrayPointer s.argumentCount
  let message ← instantiateClassWithPointers classMessagePointer messageSize
  inMemory (storePointerOfObjectWithValue messageSelectorIndex message s.messageSelector)
  inMemory (storePointerOfObjectWithValue messageArgumentsIndex message argumentArray)
  let s ← get
  inMemory (transfer s.argumentCount (s.stackPointer - (s.argumentCount - 1)) s.activeContext 0
    argumentArray)
  pop s.argumentCount
  push message
  modify fun s => { s with argumentCount := 1 }

/-- One lookup along the chain. Where it fails, the recursive call looks for
`doesNotUnderstand:`. -/
def lookupOnce (cls : Nat) : IM (Unit ⊕ Bool) := do
  match ← inMemory (lookupInChain (← get).messageSelector cls) with
  | some (newMethod, primitiveIndex) =>
      modify fun s => { s with newMethod, primitiveIndex }
      return .inr true
  | none =>
      createActualMessage
      modify fun s => { s with messageSelector := doesNotUnderstandSelector }
      return .inl ()

def lookupMethodInClass (cls : Nat) : IM Bool := iterate (fun _ => lookupOnce cls) ()

/-! ## The method cache -/

def initializeMethodCache : IM Unit :=
  modify fun s => { s with methodCache := fun _ => nilPointer }

def cacheHash (messageSelector cls : Nat) : Nat := (messageSelector &&& cls &&& 0xFF) <<< 2

/-- The four cells of the cache from `hash` on. -/
def cachePut (hash messageSelector cls newMethod primitiveIndex : Nat) (cache : Nat → Nat) :
    Nat → Nat := fun i =>
  if i = hash then messageSelector
  else if i = hash + 1 then cls
  else if i = hash + 2 then newMethod
  else if i = hash + 3 then primitiveIndex
  else cache i

def findNewMethodInClass (cls : Nat) : IM Unit := do
  let s ← get
  let hash := cacheHash s.messageSelector cls
  if s.methodCache hash = s.messageSelector ∧ s.methodCache (hash + 1) = cls then
    modify fun s => { s with
      newMethod := s.methodCache (hash + 2)
      primitiveIndex := s.methodCache (hash + 3) }
  else
    let _ ← lookupMethodInClass cls
    modify fun s => { s with
      methodCache := cachePut hash s.messageSelector cls s.newMethod s.primitiveIndex s.methodCache }

end Crosstalk
