import ChunkRelay.Main
import ChunkRelay.Proofs.Completion
import ChunkRelay.Proofs.Integrity
import ChunkRelay.Proofs.Rollback
import ChunkRelay.Proofs.Skipping
import ChunkRelay.Proofs.Resending
import ChunkRelay.Proofs.Replication
import ChunkRelay.Proofs.Demultiplexing
import ChunkRelay.Proofs.Truncation
import ChunkRelay.Proofs.Deduplication
import ChunkRelay.Proofs.Transport
import ChunkRelay.Proofs.Normalisation
import ChunkRelay.Proofs.Damage
import ChunkRelay.Proofs.Signing
import ChunkRelay.Proofs.Reading
import ChunkRelay.Proofs.Calls
import ChunkRelay.Proofs.Rebuilding
import ChunkRelay.Proofs.Confinement
import ChunkRelay.Proofs.Packing
import ChunkRelay.Proofs.Synchronisation
import ChunkRelay.Proofs.Cutting
import ChunkRelay.Proofs.Refusals
import ChunkRelay.Proofs.Verdicts
import ChunkRelay.Proofs.Lifecycle
import ChunkRelay.Proofs.Bursts
import ChunkRelay.Proofs.Oversize
import ChunkRelay.Proofs.Writing
import ChunkRelay.Proofs.BlockSizes
import ChunkRelay.Proofs.Forwarding
import ChunkRelay.Proofs.Origins
import ChunkRelay.Proofs.Blame
import ChunkRelay.Proofs.PublicKeys
import ChunkRelay.Proofs.Announcing
import ChunkRelay.Proofs.Publishing
import ChunkRelay.Proofs.Indexing
import ChunkRelay.Proofs.Copying
import ChunkRelay.Proofs.Contention
import ChunkRelay.Proofs.KeyRings
import ChunkRelay.Proofs.ContentPaths
import ChunkRelay.Proofs.Precedence
import ChunkRelay.Proofs.Aliasing
import ChunkRelay.Proofs.Neighbours
