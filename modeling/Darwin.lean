import Darwin.Lib.Bytes
import Darwin.Lib.Machine
import Darwin.Lib.Probe
import Darwin.Libkern.OSObject
import Darwin.Libkern.BinaryFormat
import Darwin.Libkern.SerializeBinary
import Darwin.Libkern.SerializeBinaryOutput
import Darwin.Libkern.UnserializeBinary
import Darwin.Libkern.UnserializeBinaryRecords
import Darwin.Libkern.UnserializeBinarySafety
import Darwin.Libkern.BinaryRoundTripSync
import Darwin.Libkern.BinaryRoundTripSteps
import Darwin.Libkern.BinaryRoundTripIteration
import Darwin.Libkern.BinaryRoundTrip
import Darwin.IOKit.StringFuncs
import Darwin.Libkern.XMLLexer
import Darwin.Libkern.SerializeXML
import Darwin.Libkern.XMLParser
import Darwin.Libkern.SerializeXMLText
import Darwin.Libkern.XMLLexemes
import Darwin.Libkern.XMLDepth
import Darwin.Libmalloc.Bitarray
import Darwin.Kern.Bits
import Darwin.Kern.RunQueue
import Darwin.Kern.BitmapIter
import Darwin.Bsd.TtySubr
import Darwin.Kxld.Dict
import Darwin.Kxld.Array
import Darwin.Libc.CollectionsMap
import Darwin.Pthread.KsynQueue
import Darwin.Libkern.Dictionary
import Darwin.Libkern.KextVersion
import Darwin.Lib.Runs
import Darwin.Libkern.InetNtop
import Darwin.Lib.Slots
import Darwin.Lib.Chain
import Darwin.Lib.PairingHeap
import Darwin.Libkern.PriorityQueue
import Darwin.Lib.Blocks
import Darwin.Bsd.Descrip
import Darwin.Libmalloc.NanoV2
import Darwin.Corecrypto.Ccn
import Darwin.Corecrypto.CcnSpec
import Darwin.Corecrypto.CcnMul
import Darwin.Corecrypto.CcnDiv
import Darwin.Corecrypto.Der
import Darwin.Corecrypto.Cczp
import Darwin.Corecrypto.Rsa
import Darwin.Corecrypto.Digest
import Darwin.Corecrypto.Hmac
import Darwin.Lib.Gf256
import Darwin.Lib.Aes
import Darwin.Corecrypto.Aes
import Darwin.Lib.Ring
import Darwin.IOKit.DataQueueDispatch
import Darwin.IOKit.DataQueue
import Darwin.Ipc.Space
import Darwin.Libkern.InetPton
import Darwin.Lib.Absorb
import Darwin.Corecrypto.Compress
import Darwin.Corecrypto.DigestUpdate
import Darwin.Corecrypto.DigestFinal
import Darwin.Corecrypto.HmacSha256
import Darwin.Bsd.ClistQueue
