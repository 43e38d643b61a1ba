import AudioProject.Kind

/-
  The class of an object. Classes that the project logic looks at have a constructor each; every
  other class is carried along by its name.
-/

namespace AudioProject

inductive ObjectClass where
  | workspace
  | eventFolder
  | masterEventFolder
  | event
  | bank
  | bankFolder
  | masterBankFolder
  | mixerGroup
  | mixerMaster
  | assetFolder
  | masterAssetFolder
  | audioFile
  | singleSound
  | multiSound
  | groupTrack
  | masterTrack
  | timeline
  | eventMixer
  | eventMixerGroup
  | eventMixerMaster
  | mixerInput
  | mixerBusEffectChain
  | mixerBusPanner
  | mixerBusFader
  | other (name : String)
  deriving DecidableEq, Repr

namespace ObjectClass

/-- Every class with a constructor of its own. -/
def known : List ObjectClass :=
  [workspace, eventFolder, masterEventFolder, event, bank, bankFolder, masterBankFolder,
   mixerGroup, mixerMaster, assetFolder, masterAssetFolder, audioFile, singleSound, multiSound,
   groupTrack, masterTrack, timeline, eventMixer, eventMixerGroup, eventMixerMaster, mixerInput,
   mixerBusEffectChain, mixerBusPanner, mixerBusFader]

/-- The value of the `class` attribute. -/
def name : ObjectClass → String
  | workspace => "Workspace"
  | eventFolder => "EventFolder"
  | masterEventFolder => "MasterEventFolder"
  | event => "Event"
  | bank => "Bank"
  | bankFolder => "BankFolder"
  | masterBankFolder => "MasterBankFolder"
  | mixerGroup => "MixerGroup"
  | mixerMaster => "MixerMaster"
  | assetFolder => "AssetFolder"
  | masterAssetFolder => "MasterAssetFolder"
  | audioFile => "AudioFile"
  | singleSound => "SingleSound"
  | multiSound => "MultiSound"
  | groupTrack => "GroupTrack"
  | masterTrack => "MasterTrack"
  | timeline => "Timeline"
  | eventMixer => "EventMixer"
  | eventMixerGroup => "EventMixerGroup"
  | eventMixerMaster => "EventMixerMaster"
  | mixerInput => "MixerInput"
  | mixerBusEffectChain => "MixerBusEffectChain"
  | mixerBusPanner => "MixerBusPanner"
  | mixerBusFader => "MixerBusFader"
  | other n => n

def ofName (s : String) : ObjectClass := (known.find? (·.name = s)).getD (other s)

def isKnown : ObjectClass → Bool
  | other _ => false
  | _ => true

/-- The kind whose index holds objects of this class. -/
def kind? : ObjectClass → Option Kind
  | eventFolder => some .eventFolder
  | assetFolder => some .assetFolder
  | bank => some .bank
  | bankFolder => some .bank
  | mixerGroup => some .bus
  | mixerMaster => some .bus
  | _ => none

/-- The metadata directory that holds documents of this class. -/
def directory? : ObjectClass → Option String
  | eventFolder => some "EventFolder"
  | event => some "Event"
  | bank => some "Bank"
  | bankFolder => some "BankFolder"
  | mixerGroup => some "Group"
  | assetFolder => some "Asset"
  | audioFile => some "AudioFile"
  | _ => none

theorem name_ofName (s : String) : (ofName s).name = s := by
  unfold ofName
  cases h : known.find? (·.name = s) with
  | none => rfl
  | some c =>
    have := List.find?_some h
    simpa using this

end ObjectClass

/-- Whether objects of class `c` belong to kind `k`. -/
def Kind.accepts (k : Kind) (c : ObjectClass) : Bool := c.kind? = some k

end AudioProject
