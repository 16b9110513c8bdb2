import WaveDB.Database.Subtree
import WaveDB.Database.WalCodec

/-!
Identifiers as byte strings (`HBTrie/identifier.c`).

An identifier gives its bytes back, but it is compared by its chunks, and the padding of the last
one is part of them. The chunk of an empty buffer is whatever follows the buffer in memory.
-/

namespace WaveDB.Database

open HBTrie List

variable {a b behind : Bytes} {cs cs' : ChunkSize}

end WaveDB.Database
