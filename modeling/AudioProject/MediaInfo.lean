import AudioProject.Decimal.Positional

/-
  What a media file says of itself: its sample rate, its channels, and how many samples each
  channel has.
-/

namespace AudioProject

structure MediaInfo where
  sampleRate : Nat
  channels : Nat
  frames : Nat
  deriving DecidableEq, Repr

namespace MediaInfo

/-- The sample rate in kilohertz, as objects store it. -/
def frequencyText (i : MediaInfo) : String := Decimal.quotientText i.sampleRate 1000

/-- The duration in seconds. -/
def durationText (i : MediaInfo) : String := Decimal.quotientText i.frames i.sampleRate

end MediaInfo

end AudioProject
