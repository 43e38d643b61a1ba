import AudioProject.EventGraph
import AudioProject.MediaInfo

/-
  Playing new media in an event. A multi sound holds one single sound for each media file, in
  order, and stands as the only module on a group track and on the timeline. The audio files
  themselves have documents of their own and are not nodes.
-/

namespace AudioProject

/-- A media file at its place in the project. -/
structure PreparedMedia where
  /-- The path below the assets directory. -/
  assetPath : String
  info : Option MediaInfo
  deriving DecidableEq

/-- The object of an audio file. Without information it has no format and no length. -/
def audioFile (id : ObjectId) (m : PreparedMedia) (masterAssetFolder : ObjectId) : Object :=
  let o : Object := { id := id, objectClass := .audioFile }
  let o := o.setProperty "assetPath" m.assetPath
  let o := match m.info with
    | some info =>
      ((o.setProperty "frequencyKHz" info.frequencyText).setProperty "channelCount"
        (toString info.channels)).setProperty "length" info.durationText
    | none => o.setProperty "length" "0"
  o.setEdge "masterAssetFolder" [masterAssetFolder]

def singleSound (id audio : ObjectId) : Object :=
  ({ id := id, objectClass := .singleSound } : Object).setEdge "audioFile" [audio]

/-- A multi sound is as long as its first media file. -/
def multiSound (id : ObjectId) (first : PreparedMedia) (sounds : List ObjectId) : Object :=
  let length := match first.info with
    | some info => info.durationText
    | none => "0"
  (({ id := id, objectClass := .multiSound } : Object).setProperty "length" length).setEdge
    "sounds" sounds

/-- Two new ids for each media file, for its object and for its sound. -/
def soundsFor (masterAssetFolder : ObjectId) (ids : IdSupply) :
    List PreparedMedia → List (Object × Object) × IdSupply
  | [] => ([], ids)
  | m :: ms =>
    let (audio, ids) := ids.mint
    let (sound, ids) := ids.mint
    let (rest, ids) := soundsFor masterAssetFolder ids ms
    ((audioFile audio m masterAssetFolder, singleSound sound audio) :: rest, ids)

namespace EventGraph

/-- A new group track, and the other nodes that it needs. Its mixer group has the event's name,
and leads to the event's master if there is one. -/
def newGroupTrack (g : EventGraph) (ids : IdSupply) : Object × List Object × IdSupply :=
  let (fader, ids) := ids.mint
  let (panner, ids) := ids.mint
  let (chain, ids) := ids.mint
  let (group, ids) := ids.mint
  let (track, ids) := ids.mint
  let name := (g.rootObject?.bind Object.name?).getD ""
  let groupObject := ((({ id := group, objectClass := .eventMixerGroup } : Object).setProperty
    "name" name).setEdge "effectChain" [chain]).setEdge "panner" [panner]
  let groupObject := match g.firstOf? .eventMixerMaster with
    | some master => groupObject.setEdge "output" [master.id]
    | none => groupObject
  (({ id := track, objectClass := .groupTrack } : Object).setEdge "mixerGroup" [group],
    [groupObject,
     ({ id := chain, objectClass := .mixerBusEffectChain } : Object).setEdge "effects" [fader],
     { id := panner, objectClass := .mixerBusPanner },
     { id := fader, objectClass := .mixerBusFader }], ids)

def insertAll (g : EventGraph) (os : List Object) : EventGraph := os.foldl insert g

/-- The first group track. If there is none, a new one is attached to the root. -/
def withGroupTrack (g : EventGraph) (ids : IdSupply) : EventGraph × ObjectId × IdSupply :=
  match g.firstOf? .groupTrack with
  | some track => (g, track.id, ids)
  | none =>
    let (track, others, ids) := g.newGroupTrack ids
    let g := g.update g.root fun o => o.pushEdge "groupTracks" track.id
    (g.insertAll (track :: others), track.id, ids)

/-- The timeline that the root names, else the first one. -/
def timeline? (g : EventGraph) : Option ObjectId :=
  match (g.rootObject?.bind (·.singleEdge? "timeline")).filter g.contains with
  | some id => some id
  | none => (g.firstOf? .timeline).map Object.id

/-- Makes `module` the only module of a node. -/
def setModules (g : EventGraph) (node module : ObjectId) : EventGraph :=
  g.update node fun o => o.setEdge "modules" [module]

/-- Makes `module` the only module of the timeline, if there is one. -/
def setTimeline (g : EventGraph) (module : ObjectId) : EventGraph :=
  match g.timeline? with
  | some id => g.setModules id module
  | none => g

/-- Lets an event play media. The audio files come back in media order; without media the graph
stays as it is. -/
def graft (g : EventGraph) (media : List PreparedMedia) (ids : IdSupply)
    (masterAssetFolder : ObjectId) : EventGraph × List Object × IdSupply :=
  match media with
  | [] => (g, [], ids)
  | first :: _ =>
    let (sounds, ids) := soundsFor masterAssetFolder ids media
    let g := g.insertAll (sounds.map Prod.snd)
    let (multi, ids) := ids.mint
    let g := g.insert (multiSound multi first (sounds.map fun s => s.2.id))
    let (g, track, ids) := g.withGroupTrack ids
    ((g.setModules track multi).setTimeline multi, sounds.map Prod.fst, ids)

end EventGraph

end AudioProject
