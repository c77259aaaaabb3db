import SamplerPorts.Text.Basic

/-!
Why an access to the disk or to the output can fail.
-/

namespace SamplerPorts

inductive IoError where
  | notFound
  | notADirectory
  | isADirectory
  /-- More links were followed than one path may lead through. -/
  | tooManyLinks
  /-- A path with the character NUL in it names nothing. -/
  | nulInPath
  | notUtf8
  /-- The output takes no more bytes. -/
  | sinkFull
  | other (text : Text)
  deriving DecidableEq

/-- The error in words, with its number where the operating system has one. -/
def IoError.message : IoError → Text
  | .notFound => "No such file or directory (os error 2)".toList
  | .notADirectory => "Not a directory (os error 20)".toList
  | .isADirectory => "Is a directory (os error 21)".toList
  | .tooManyLinks => "Too many levels of symbolic links (os error 40)".toList
  | .nulInPath => "file name contained an unexpected NUL byte".toList
  | .notUtf8 => "stream did not contain valid UTF-8".toList
  | .sinkFull => "sink full".toList
  | .other text => text

end SamplerPorts
