import ChunkRelay.Command.Options
import ChunkRelay.Settings
import ChunkRelay.Storage.Pipe
import ChunkRelay.Transfer.Batch

/-! Packing: a file becomes a batch of one session in another file. -/
namespace ChunkRelay

/-- What was packed. -/
structure Packed where
  chunks : Nat
  toDisk : Bool
  contentKey : Hash
  deriving DecidableEq

namespace Packed

def defaultApplication : String := "scatter-ctl"

/-- The header for a file with these chunks. -/
def draft (o : Options) (blockSize : UInt32) (file : String) (hashes : List Hash) : Header.Draft where
  application := some (o.application.getD defaultApplication)
  blockSize := some blockSize
  mime := some (o.mime.getD defaultMime)
  extension := Path.extension? file
  userFilename := Path.fileName? file
  hashes := hashes

/-- Writes a session, read from the file at `input`, to the file at `output`. -/
def transfer (s : Session (ChunkReader Source)) (d : Disk) (input output : Place) :
    Except TransferError Nat × Disk :=
  let feed := s.packets.inner.withSource (⟨d, input, 0, output, ByteArray.empty⟩ : FilePipe)
  let (result, s) := (s.withFeed feed).write
  (result, s.packets.inner.source.settle.disk)

end Packed

/-- Packs `file` into `out`. The file is read once for the header and once more, chunk by chunk, while
`out` is written. -/
def pack (settings : Settings) (o : Options) (d : Disk) (file out : String) :
    Except CommandError Packed × Disk :=
  let blockSize := o.blockSize.getD settings.blockSize
  match Disk.chunkHashes d file blockSize with
  | .error e => (.error (.file e), d)
  | .ok hashes =>
    match Header.build (Packed.draft o blockSize file hashes) with
    | .error e => (.error (.header e), d)
    | .ok h =>
      match Session.ofFile (.ofHeader h (.file file)) d file settings.threshold true, d.resolve file with
      | .error e, _ => (.error (.transfer e), d)
      | _, .error e => (.error (.transfer (.io e)), d)
      | .ok s, .ok input =>
        match d.create out with
        | .error e => (.error (.create out e), d)
        | .ok (output, d) =>
          match Packed.transfer s d input.place output with
          | (.error e, d) => (.error (.transfer e), d)
          | (.ok n, d) => (.ok ⟨n, s.header.toDisk, h.contentKey⟩, d)

end ChunkRelay
