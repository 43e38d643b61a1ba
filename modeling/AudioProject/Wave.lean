import AudioProject.Files.Error
import AudioProject.MediaInfo

/-
  The header of a WAV file: a `RIFF` tag, a `WAVE` tag and chunks up to the one with the samples.
  A format chunk is read field by field, and only the fields that its kind has are skipped over.
-/

namespace AudioProject.Wave

/-- What is wrong with a header. -/
inductive Flaw where
  | noRiffTag
  | noWaveTag
  | shortFormat
  | formatSize
  | zeroChannels
  | sampleBitsTooLarge
  | inconsistentFormat
  | bitsNotBytes
  | zeroBits
  | bitsNot8Or16
  | bitsNot32
  | extensionSize
  | extensibleSize
  | missingFormat
  | unevenSamples
  | unevenFrames
  deriving DecidableEq, Repr

inductive Error where
  | file (e : FileError)
  | endOfData
  | unsupported
  | illFormed (what : Flaw)
  | zeroSampleRate
  deriving DecidableEq, Repr

def Flaw.message : Flaw → String
  | noRiffTag => "no RIFF tag found"
  | noWaveTag => "no WAVE tag found"
  | shortFormat => "invalid fmt chunk size"
  | formatSize => "unexpected fmt chunk size"
  | zeroChannels => "file contains zero channels"
  | sampleBitsTooLarge => "sample bits exceeds size of sample"
  | inconsistentFormat => "inconsistent fmt chunk"
  | bitsNotBytes => "bits per sample is not a multiple of 8"
  | zeroBits => "bits per sample is 0"
  | bitsNot8Or16 => "bits per sample is not 8 or 16"
  | bitsNot32 => "bits per sample is not 32"
  | extensionSize => "unexpected WAVEFORMATEX size"
  | extensibleSize => "unexpected WAVEFORMATEXTENSIBLE size"
  | missingFormat => "missing fmt chunk"
  | unevenSamples => "data chunk length is not a multiple of sample size"
  | unevenFrames => "invalid data chunk length"

def unreadable (why : String) : String := "unreadable audio file: " ++ why

def Error.message : Error → String
  | file e => unreadable e.message
  | endOfData => unreadable "Failed to read enough bytes."
  | unsupported => unreadable "The wave format of the file is not supported."
  | illFormed what => unreadable ("Ill-formed WAVE file: " ++ what.message)
  | zeroSampleRate => "audio file reports a zero sample rate"

/-! ## Reading bytes -/

abbrev Reader := StateT (List UInt8) (Except Error)

def take (n : Nat) : Reader (List UInt8) := fun bytes =>
  if bytes.length < n then .error .endOfData else .ok (bytes.take n, bytes.drop n)

/-- The number of `n` bytes, the lowest first. -/
def number (n : Nat) : Reader Nat := do
  return (← take n).foldr (fun b v => b.toNat + 256 * v) 0

def tag (s : String) : List UInt8 := s.toUTF8.toList

def ensure (p : Bool) (what : Flaw) : Reader Unit :=
  if p then pure () else throw (.illFormed what)

/-! ## Chunks -/

structure Format where
  channels : Nat
  sampleRate : Nat
  bytesPerSample : Nat
  deriving DecidableEq, Repr

/-- The formats of samples that an extended chunk names. -/
def pcmGuid : List UInt8 := [1, 0, 0, 0, 0, 0, 0x10, 0, 0x80, 0, 0, 0xaa, 0, 0x38, 0x9b, 0x71]

def floatGuid : List UInt8 := [3, 0, 0, 0, 0, 0, 0x10, 0, 0x80, 0, 0, 0xaa, 0, 0x38, 0x9b, 0x71]

/-- What follows the common fields, by format tag. -/
def readRest (formatTag length bits : Nat) : Reader Unit :=
  if formatTag = 1 then do
    if length = 16 then return
    ensure (length = 18 || length = 40) .formatSize
    let _ ← take 2
    ensure (bits = 8 || bits = 16 || bits = 24) .bitsNot8Or16
    if length = 40 then let _ ← take 22
  else if formatTag = 3 then do
    ensure (length = 16 || length = 18) .formatSize
    if length = 18 then ensure ((← number 2) = 0) .extensionSize
    ensure (bits = 32) .bitsNot32
  else if formatTag = 0xfffe then do
    ensure (40 ≤ length) .formatSize
    ensure ((← number 2) = 22) .extensibleSize
    let _ ← take 6
    let guid ← take 16
    if guid = pcmGuid ∨ guid = floatGuid then return else throw .unsupported
  else throw .unsupported

def readFormat (length : Nat) : Reader Format := do
  ensure (16 ≤ length) .shortFormat
  let formatTag ← number 2
  let channels ← number 2
  let sampleRate ← number 4
  let bytesPerSecond ← number 4
  let align ← number 2
  let bits ← number 2
  ensure (channels ≠ 0) .zeroChannels
  let bytesPerSample := align / channels
  ensure (bits ≤ 8 * bytesPerSample && 8 * bytesPerSample < Nat.pow 2 16) .sampleBitsTooLarge
  ensure (bytesPerSecond = align * sampleRate && align * sampleRate < Nat.pow 2 32)
    .inconsistentFormat
  ensure (bits % 8 = 0) .bitsNotBytes
  ensure (bits ≠ 0) .zeroBits
  readRest formatTag length bits
  return ⟨channels, sampleRate, bytesPerSample⟩

/-- The whole samples that `length` bytes hold. -/
def readData (format : Option Format) (length : Nat) : Reader MediaInfo := do
  match format with
  | none => throw (.illFormed .missingFormat)
  | some f =>
    let samples := length / f.bytesPerSample
    ensure (samples * f.bytesPerSample = length) .unevenSamples
    ensure (samples % f.channels = 0) .unevenFrames
    return ⟨f.sampleRate, f.channels, samples / f.channels⟩

/-- Chunks up to the samples, at most `n`. A later format replaces an earlier one; a `fact` chunk
has four bytes whatever its length says. -/
def readChunks (format : Option Format) : Nat → Reader MediaInfo
  | 0 => throw .endOfData
  | n + 1 => do
    let name ← take 4
    let length ← number 4
    if name = tag "fmt " then readChunks (some (← readFormat length)) n
    else if name = tag "fact" then
      let _ ← take 4
      readChunks format n
    else if name = tag "data" then readData format length
    else
      let _ ← take length
      readChunks format n

def readHeader : Reader MediaInfo := do
  ensure ((← take 4) = tag "RIFF") .noRiffTag
  let _ ← take 4
  ensure ((← take 4) = tag "WAVE") .noWaveTag
  let info ← readChunks none (← get).length
  if info.sampleRate = 0 then throw .zeroSampleRate else return info

/-- What the bytes of a file say. -/
def probe (bytes : List UInt8) : Except Error MediaInfo := readHeader.run' bytes

end AudioProject.Wave
