import NfsServer.Proofs.Interleaving.Places
import NfsServer.Proofs.ListenAddress
import NfsServer.Proofs.Listing.Handles
import NfsServer.Proofs.Listing.Paging
import NfsServer.Proofs.Nfs.Times
import NfsServer.Proofs.Rpc.Creation
import NfsServer.Proofs.Rpc.Denial
import NfsServer.Proofs.Rpc.Existing
import NfsServer.Proofs.Rpc.Found
import NfsServer.Proofs.Rpc.Framing
import NfsServer.Proofs.Rpc.Guards
import NfsServer.Proofs.Rpc.Mounting
import NfsServer.Proofs.Rpc.Reading
import NfsServer.Proofs.Rpc.Remembering
import NfsServer.Proofs.Rpc.Results
import NfsServer.Proofs.Rpc.SpecialFiles
import NfsServer.Proofs.Rpc.Wcc
import NfsServer.Proofs.Rpc.Writing
